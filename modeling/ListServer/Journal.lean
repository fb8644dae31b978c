import ListServer.LogReplay
import ListServer.WriteOrder
import ListServer.Lib.WriteAhead

namespace ListServer.Journal

open Lib.CTypes CarList Message Skeleton ClientThread ChainControl Linearizability Agreement WriteOrder
open ClientStub Lib.Transition Lib.WriteAhead Lib.Replication
open ServerLog (Text Peer EventType Word finalLine)
open LogReplay
open ChainSystem (Chain set_self set_ne step_send step_own step_back step_answer)

/-- A chain whose servers keep their logs: for which requests each of them has
called `write_in_server_log`, the lines that it has enqueued, and whether the
request that a thread has in its hands is among those calls. -/
structure Logged where
  chain : Chain
  calls : Nat → List (Conn × Request)
  lines : Nat → List (Option CString)
  hasLine : Place → Bool

/-- What the writer makes of the lines of a server. -/
def Logged.file (s : Logged) (i : Nat) : Text := (s.lines i).flatMap LogQueue.text

def Logged.start (n : Nat) (list : ListT) : Logged :=
  ⟨Chain.start n list, fun _ => [], fun _ => [], fun _ => false⟩

inductive Label
  | chain (l : ChainSystem.Label)
  | writeInServerLog (i : Nat) (c : Conn) (r : Request) (ts : Int)
  | connection (i : Nat) (c : Conn) (eventType : EventType) (ts : Int)
deriving DecidableEq

/-- A thread logs its request before it asks for `lock_list`. -/
def mayStep (hasLine : Place → Bool) : ChainSystem.Label → Bool
  | .own i (.lock c) => hasLine (i, c)
  | _ => true

/-- A request that has just been received has not been logged. -/
def received (hasLine : Place → Bool) : ChainSystem.Label → Place → Bool
  | .own i (.receive c) => Function.update hasLine (i, c) false
  | _ => hasLine

section System

/- `formatF` is the `%.2f` of C, and `peer` the other end of each connection. -/
variable (formatF : Single → CString) (peer : Nat → Conn → Option Peer)

def eventOf (i : Nat) (c : Conn) (r : Request) (ts : Int) : ServerLog.Event :=
  ⟨ts, peer i c, .request, some (inMemory r.msg)⟩

/-- A server that crashes in `write_in_server_log` takes no step. -/
def step (n : Nat) (t : AnoAtual) (s : Logged) : Label → Option Logged
  | .chain l =>
    if mayStep s.hasLine l then (ChainSystem.step n t s.chain l).map fun u =>
      { s with chain := u, hasLine := received s.hasLine l }
    else none
  | .writeInServerLog i c r ts =>
    if phaseAt s.chain (i, c) = .received r ∧ s.hasLine (i, c) = false then
      match finalLine formatF (eventOf peer i c r ts) with
      | .error _ => none
      | .ok str => some { s with
        calls := Function.update s.calls i (s.calls i ++ [(c, r)])
        lines := Function.update s.lines i (s.lines i ++ [str])
        hasLine := Function.update s.hasLine (i, c) true }
    else none
  | .connection i c eventType ts =>
    match finalLine formatF ⟨ts, peer i c, eventType, none⟩ with
    | .error _ => none
    | .ok str => some { s with lines := Function.update s.lines i (s.lines i ++ [str]) }

end System

def chainLabels (ls : List Label) : List ChainSystem.Label :=
  ls.filterMap fun
    | .chain l => some l
    | .writeInServerLog .. | .connection .. => none

/-- What a step means for the log of server `i`. -/
def eventAt (i : Nat) : Label → Option (Event Conn Request)
  | .writeInServerLog j c r _ => if j = i then some (.note c r) else none
  | .chain (.invoke j c r) => if j = i then some (.perform c r) else none
  | .chain _ | .connection .. => none

/-- The requests that server `i` has executed, each with its connection. -/
def executedAt (i : Nat) (ls : List Label) : List (Conn × Request) :=
  ls.filterMap fun
    | .chain (.invoke j c r) => if j = i then some (c, r) else none
    | _ => none

def inHand (hasLine : Bool) : Phase → Option Request
  | .received r => if hasLine then some r else none
  | .locked r | .linked r | .waiting r | .forwarded r _ => some r
  | _ => none

def handAt (s : Logged) (x : Place) : Option Request := inHand (s.hasLine x) (phaseAt s.chain x)

def bookAt (i : Nat) (ls : List Label) (s : Logged) : Book Conn Request :=
  ⟨s.calls i, executedAt i ls, fun c => handAt s (i, c)⟩

def editing (r : Request) : Bool := isEdit r.msg

def edits (es : List (Conn × Request)) : List Request :=
  (es.filter fun e => editing e.2).map Prod.snd

section Steps

variable {formatF : Single → CString} {peer : Nat → Conn → Option Peer} {n : Nat} {t : AnoAtual}
  {s s' : Logged} {l : Label} {i : Nat}

theorem step_chain {l : ChainSystem.Label} : step formatF peer n t s (.chain l) = some s' ↔
    mayStep s.hasLine l = true ∧ ∃ u, ChainSystem.step n t s.chain l = some u ∧
      { s with chain := u, hasLine := received s.hasLine l } = s' := by
  simp only [step, Option.ite_none_right_eq_some, Option.map_eq_some_iff]

theorem same_at (f : Place → Bool) (x y : Place) : f y = if y = x then f x else f y := by
  split
  next he => rw [he]
  next => rfl

theorem handAt_set {x : Place} {p : Phase} {u : Chain} {b : Bool} {hasLine : Place → Bool}
    (hs : { s with chain := u, hasLine := hasLine } = s')
    (hat : ∀ y, phaseAt u y = if y = x then p else phaseAt s.chain y)
    (hb : ∀ y, hasLine y = if y = x then b else s.hasLine y)
    (hp : inHand b p = handAt s x) (y : Place) : handAt s' y = handAt s y := by
  subst hs
  show inHand (hasLine y) (phaseAt u y) = handAt s y
  rw [hat, hb]
  by_cases hy : y = x
  · rw [if_pos hy, if_pos hy, hp, hy]
  · rw [if_neg hy, if_neg hy]
    rfl

theorem handAt_place {x : Place} {p : Phase} (hx : phaseAt s.chain x = p) :
    handAt s x = inHand (s.hasLine x) p := by rw [handAt, hx]

theorem handAt_own {j : Nat} {a : Act} (hs : step formatF peer n t s (.chain (.own j a)) = some s') (x : Place) :
    handAt s' x = handAt s x := by
  obtain ⟨hmay, u, hu, hs'⟩ := step_chain.mp hs
  obtain ⟨ha, v, hv, rfl⟩ := step_own.mp hu
  cases a with
  | receive c =>
    obtain ⟨r, hc, rfl⟩ := step_receive.mp hv
    have hat : phaseAt s.chain (j, c) = .sent r := hc
    refine handAt_set (p := .received r) (b := false) hs' (at_set rfl)
      (fun x => ?_) (handAt_place hat).symm x
    rw [received, Function.update_apply]
  | lock c =>
    obtain ⟨r, hc, -, rfl⟩ := step_lock.mp hv
    have hat : phaseAt s.chain (j, c) = .received r := hc
    refine handAt_set (p := .locked r) hs' (at_set rfl) (same_at s.hasLine _) ?_ x
    have hline : s.hasLine (j, c) = true := hmay
    rw [handAt_place hat, inHand, inHand, if_pos hline]
  | link c =>
    obtain ⟨r, hc, -, -, rfl⟩ := step_link.mp hv
    have hat : phaseAt s.chain (j, c) = .locked r := hc
    exact handAt_set (p := .linked r) hs' (at_set rfl) (same_at s.hasLine _)
      (handAt_place hat).symm x
  | alone c =>
    obtain ⟨r, hc, -, rfl⟩ := step_alone.mp hv
    have hat : phaseAt s.chain (j, c) = .linked r := hc
    exact handAt_set (p := .forwarded r (-2)) hs' (at_set rfl) (same_at s.hasLine _)
      (handAt_place hat).symm x
  | release c =>
    obtain ⟨r, m, hc, rfl⟩ := step_release.mp hv
    have hat : phaseAt s.chain (j, c) = .invoked r m := hc
    exact handAt_set (p := .released r m) hs' (at_set rfl) (same_at s.hasLine _)
      (handAt_place hat).symm x
  | reply c =>
    obtain ⟨r, m, hc, rfl⟩ := step_reply.mp hv
    have hat : phaseAt s.chain (j, c) = .released r m := hc
    exact handAt_set (p := .replied r m) hs' (at_set rfl) (same_at s.hasLine _)
      (handAt_place hat).symm x
  | deliver | forward | back | invoke | take => cases ha

theorem handAt_forward {j : Nat} {c : Conn} (hs : step formatF peer n t s (.chain (.forward j c)) = some s')
    (x : Place) : handAt s' x = handAt s x := by
  obtain ⟨-, u, hu, rfl⟩ := step_chain.mp hs
  obtain ⟨r, hc, -, hq, rfl⟩ := ChainSystem.step_forward.mp hu
  have hfrom : phaseAt s.chain (j, c) = .linked r := hc
  have hto : phaseAt s.chain (j + 1, .pred) = .idle := hq
  have hat := at_set_set (s := s.chain) (i := j) (c := c) (p := .waiting r) (q := .sent r)
    (u := (s.chain.srv j).setPhase c (.waiting r))
    (v := (s.chain.srv (j + 1)).setPhase .pred (.sent r)) rfl rfl x
  rw [handAt, hat]
  split
  next he => rw [he, handAt_place hto]; rfl
  next =>
    split
    next he => rw [he, handAt_place hfrom]; rfl
    next => rfl

theorem handAt_back {j : Nat} {c : Conn} (hs : step formatF peer n t s (.chain (.back j c)) = some s')
    (x : Place) : handAt s' x = handAt s x := by
  obtain ⟨-, u, hu, rfl⟩ := step_chain.mp hs
  obtain ⟨r, r', m, hc, hq, rfl⟩ := step_back.mp hu
  have hto : phaseAt s.chain (j, c) = .waiting r := hc
  have hfrom : phaseAt s.chain (j + 1, .pred) = .replied r' m := hq
  have hat := at_set_set (s := s.chain) (i := j) (c := c) (p := .forwarded r 0) (q := .idle)
    (u := { (s.chain.srv j).setPhase c (.forwarded r 0) with rlsLock := none })
    (v := (s.chain.srv (j + 1)).setPhase .pred .idle) rfl rfl x
  rw [handAt, hat]
  split
  next he => rw [he, handAt_place hfrom]; rfl
  next =>
    split
    next he => rw [he, handAt_place hto]; rfl
    next => rfl

theorem executedAt_append (i : Nat) (ls ms : List Label) :
    executedAt i (ls ++ ms) = executedAt i ls ++ executedAt i ms := List.filterMap_append

theorem bookAt_same {ls : List Label} (hcalls : s'.calls = s.calls)
    (hhand : ∀ x, handAt s' x = handAt s x) (hl : executedAt i [l] = []) :
    bookAt i (ls ++ [l]) s' = bookAt i ls s := by
  rw [bookAt, executedAt_append, hl, List.append_nil, hcalls]
  exact congrArg _ (funext fun c => hhand (i, c))

theorem step_log {j : Nat} {c : Conn} {r : Request} {ts : Int} :
    step formatF peer n t s (.writeInServerLog j c r ts) = some s' ↔
      (phaseAt s.chain (j, c) = .received r ∧ s.hasLine (j, c) = false) ∧
        ∃ str, finalLine formatF (eventOf peer j c r ts) = .ok str ∧
          { s with
            calls := Function.update s.calls j (s.calls j ++ [(c, r)])
            lines := Function.update s.lines j (s.lines j ++ [str])
            hasLine := Function.update s.hasLine (j, c) true } = s' := by
  rw [step, Option.ite_none_right_eq_some]
  cases finalLine formatF (eventOf peer j c r ts) with
  | error => simp
  | ok str => simp

theorem handAt_log {j : Nat} {c : Conn} {r : Request} {ts : Int}
    (hs : step formatF peer n t s (.writeInServerLog j c r ts) = some s') :
    (handAt s (j, c) = none ∧ s'.calls = Function.update s.calls j (s.calls j ++ [(c, r)])) ∧
      ∀ x, handAt s' x = if x = (j, c) then some r else handAt s x := by
  obtain ⟨⟨hc, hline⟩, str, -, rfl⟩ := step_log.mp hs
  refine ⟨⟨?_, rfl⟩, fun x => ?_⟩
  · rw [handAt_place hc, hline]
    rfl
  · show inHand (Function.update s.hasLine (j, c) true x) (phaseAt s.chain x) = _
    rw [Function.update_apply]
    split
    next he => rw [he, hc, inHand, if_pos rfl]
    next => rfl

theorem handAt_invoke {j : Nat} {c : Conn} {r : Request}
    (hs : step formatF peer n t s (.chain (.invoke j c r)) = some s') :
    (handAt s (j, c) = some r ∧ s'.calls = s.calls) ∧
      ∀ x, handAt s' x = if x = (j, c) then none else handAt s x := by
  obtain ⟨-, u, hu, rfl⟩ := step_chain.mp hs
  obtain ⟨rc, hp, rfl⟩ := ChainSystem.step_invoke.mp hu
  refine ⟨⟨?_, rfl⟩, fun x => ?_⟩
  · obtain ⟨hp, -⟩ | hp := hp
    · exact handAt_place (x := (j, c)) hp
    · exact handAt_place (x := (j, c)) hp
  · have hat := at_set (s := s.chain) (i := j) (c := c)
      (u := { (s.chain.srv j).setPhase c
        (.invoked r (afterForward t rc r.msg (s.chain.srv j).list).1) with
        list := (afterForward t rc r.msg (s.chain.srv j).list).2 }) rfl x
    show inHand (s.hasLine x) (phaseAt (s.chain.set j _) x) = _
    rw [hat]
    split <;> rfl

theorem update_hand {j : Nat} {c : Conn} {hand : Option Request}
    (h : ∀ x, handAt s' x = if x = (j, c) then hand else handAt s x) :
    Function.update (fun d => handAt s (j, d)) c hand = fun d => handAt s' (j, d) := by
  funext d
  rw [h, Function.update_apply]
  by_cases hd : d = c <;> simp [hd]

theorem other_hand {j : Nat} {c : Conn} {hand : Option Request} (hij : i ≠ j)
    (h : ∀ x, handAt s' x = if x = (j, c) then hand else handAt s x) :
    (fun d => handAt s (i, d)) = fun d => handAt s' (i, d) := by
  funext d
  rw [h, if_neg fun he => hij (Prod.mk.inj he).1]

theorem bookAt_log {ls : List Label} {j : Nat} {c : Conn} {r : Request} {ts : Int}
    (hs : step formatF peer n t s (.writeInServerLog j c r ts) = some s') :
    run Lib.WriteAhead.step (bookAt i ls s) (eventAt i (.writeInServerLog j c r ts)).toList =
      some (bookAt i (ls ++ [.writeInServerLog j c r ts]) s') := by
  obtain ⟨⟨hnone, hcalls⟩, hhand⟩ := handAt_log hs
  have hperformed : executedAt i (ls ++ [.writeInServerLog j c r ts]) = executedAt i ls := by
    rw [executedAt_append]
    exact List.append_nil _
  by_cases hij : i = j
  · subst hij
    rw [eventAt, if_pos rfl]
    refine run_single _ (step_note.mpr ⟨hnone, Book.ext ?_ hperformed.symm (update_hand hhand)⟩)
    rw [bookAt, bookAt, hcalls, Function.update_self]
  · rw [eventAt, if_neg (Ne.symm hij)]
    refine congrArg some (Book.ext ?_ hperformed.symm (other_hand hij hhand))
    rw [bookAt, bookAt, hcalls, Function.update_of_ne hij]

theorem bookAt_invoke {ls : List Label} {j : Nat} {c : Conn} {r : Request}
    (hs : step formatF peer n t s (.chain (.invoke j c r)) = some s') :
    run Lib.WriteAhead.step (bookAt i ls s) (eventAt i (.chain (.invoke j c r))).toList =
      some (bookAt i (ls ++ [.chain (.invoke j c r)]) s') := by
  obtain ⟨⟨hsome, hcalls⟩, hhand⟩ := handAt_invoke hs
  have hjournal : s.calls i = s'.calls i := by rw [hcalls]
  by_cases hij : i = j
  · subst hij
    have hnew : executedAt i [.chain (.invoke i c r)] = [(c, r)] := by simp [executedAt]
    rw [eventAt, if_pos rfl]
    refine run_single _ (step_perform.mpr ⟨hsome, Book.ext hjournal ?_ (update_hand hhand)⟩)
    rw [bookAt, bookAt, executedAt_append, hnew]
  · have hnew : executedAt i [.chain (.invoke j c r)] = [] := by simp [executedAt, Ne.symm hij]
    rw [eventAt, if_neg (Ne.symm hij)]
    refine congrArg some (Book.ext hjournal ?_ (other_hand hij hhand))
    rw [bookAt, bookAt, executedAt_append, hnew, List.append_nil]

theorem step_connection {j : Nat} {c : Conn} {eventType : EventType} {ts : Int} :
    step formatF peer n t s (.connection j c eventType ts) = some s' ↔
      ∃ str, finalLine formatF ⟨ts, peer j c, eventType, none⟩ = .ok str ∧
        { s with lines := Function.update s.lines j (s.lines j ++ [str]) } = s' := by
  rw [step]
  cases finalLine formatF ⟨ts, peer j c, eventType, none⟩ with
  | error => simp
  | ok str => simp

/-- What a step does is a step of the book of each server, or nothing to it. -/
theorem bookAt_step {ls : List Label} (hs : step formatF peer n t s l = some s') :
    run Lib.WriteAhead.step (bookAt i ls s) (eventAt i l).toList =
      some (bookAt i (ls ++ [l]) s') := by
  cases l with
  | writeInServerLog j c r ts => exact bookAt_log hs
  | connection j c eventType ts =>
    obtain ⟨str, -, rfl⟩ := step_connection.mp hs
    exact congrArg some (bookAt_same rfl (fun _ => rfl) rfl).symm
  | chain l =>
    have hcalls : s'.calls = s.calls := by
      obtain ⟨-, u, -, rfl⟩ := step_chain.mp hs
      rfl
    cases l with
    | invoke j c r => exact bookAt_invoke hs
    | own j a => exact congrArg some (bookAt_same hcalls (handAt_own hs) rfl).symm
    | forward j c => exact congrArg some (bookAt_same hcalls (handAt_forward hs) rfl).symm
    | back j c => exact congrArg some (bookAt_same hcalls (handAt_back hs) rfl).symm
    | send j c r =>
      refine congrArg some (bookAt_same hcalls (fun x => ?_) rfl).symm
      obtain ⟨-, u, hu, hs'⟩ := step_chain.mp hs
      obtain ⟨-, -, hc, rfl⟩ := step_send.mp hu
      have hat : phaseAt s.chain (j, .client c) = .idle := hc
      exact handAt_set (p := .sent r) hs' (at_set rfl) (same_at s.hasLine _)
        (handAt_place hat).symm x
    | answer j c r m =>
      refine congrArg some (bookAt_same hcalls (fun x => ?_) rfl).symm
      obtain ⟨-, u, hu, hs'⟩ := step_chain.mp hs
      obtain ⟨hc, rfl⟩ := step_answer.mp hu
      have hat : phaseAt s.chain (j, .client c) = .replied r m := hc
      exact handAt_set (p := .idle) hs' (at_set rfl) (same_at s.hasLine _)
        (handAt_place hat).symm x

end Steps

section Runs

variable {formatF : Single → CString} {peer : Nat → Conn → Option Peer} {n : Nat} {t : AnoAtual}
  {list : ListT} {s s' : Logged} {l : Label} {ls : List Label} {i : Nat}

/-- Clients send their writes to the head, and the lines tell what they are. -/
def Allowed : Label → Prop
  | .chain l => WritesAtHead l
  | .writeInServerLog _ _ r _ => Tellable r.msg
  | .connection .. => True

instance : DecidablePred Allowed
  | .chain l => inferInstanceAs (Decidable (WritesAtHead l))
  | .writeInServerLog _ _ r _ => inferInstanceAs (Decidable (Tellable r.msg))
  | .connection .. => isTrue trivial

theorem needsForward_of_isEdit {msg : MessageT} (h : isEdit msg = true) :
    needsForward msg = true := by
  simp only [isEdit, Bool.or_eq_true, decide_eq_true_eq] at h
  obtain h | h := h <;> simp [needsForward, h]

/-- The books are those of parties that note before they act, the text tells
what has been logged, and behind the head only the thread of the predecessor has
changes to log. -/
structure Kept (n : Nat) (t : AnoAtual) (list : ListT) (ls : List Label) (s : Logged) : Prop where
  chain : run (ChainSystem.step n t) (Chain.start n list) (chainLabels ls) = some s.chain
  control : Control n s.chain
  books : ∀ i, run Lib.WriteAhead.step Book.empty (ls.filterMap (eventAt i)) = some (bookAt i ls s)
  pred : ∀ i, ∀ e ∈ s.calls i, 0 < i → editing e.2 = true → e.1 = .pred
  tellable : ∀ i, ∀ e ∈ s.calls i, Tellable e.2.msg
  text : ∀ i rest, changes (s.file i ++ rest) =
    ((s.calls i).map fun e => e.2.msg).filterMap told ++ changes rest

theorem kept_start (n : Nat) (t : AnoAtual) (list : ListT) :
    Kept n t list [] (Logged.start n list) where
  chain := rfl
  control := control_start n list
  books _ := rfl
  pred _ _ he := absurd he List.not_mem_nil
  tellable _ _ he := absurd he List.not_mem_nil
  text _ _ := rfl

theorem chainLabels_append (ls ms : List Label) :
    chainLabels (ls ++ ms) = chainLabels ls ++ chainLabels ms := List.filterMap_append

theorem filterMap_single {α β : Type} (f : α → Option β) (a : α) :
    [a].filterMap f = (f a).toList := by
  cases h : f a <;> simp [h]

theorem filterMap_toList {α β γ : Type} (f : α → β) (g : β → Option γ) (o : Option α) :
    (o.toList.map f).filterMap g = (o.bind fun a => g (f a)).toList := by
  cases o with
  | none => rfl
  | some a => exact filterMap_single g (f a)

theorem forall_calls {P : Nat → Conn × Request → Prop} {calls : Nat → List (Conn × Request)}
    {j : Nat} {d : Conn × Request} (h : ∀ i, ∀ e ∈ calls i, P i e) (hd : P j d) :
    ∀ i, ∀ e ∈ Function.update calls j (calls j ++ [d]) i, P i e := by
  intro i e he
  rw [Function.update_apply] at he
  split at he
  next hij =>
    subst hij
    obtain he | he := List.mem_append.mp he
    · exact h i e he
    · exact List.mem_singleton.mp he ▸ hd
  next => exact h i e he

theorem file_append {u : Logged} {j : Nat} {str : Option CString}
    (h : u.lines = Function.update s.lines j (s.lines j ++ [str])) (i : Nat) :
    u.file i = if i = j then s.file j ++ LogQueue.text str else s.file i := by
  rw [Logged.file, h, Function.update_apply]
  split
  next =>
    rw [List.flatMap_append, List.flatMap_cons, List.flatMap_nil, List.append_nil]
    rfl
  next => rfl

theorem kept_step (hf : ∀ x, Word (formatF x).bytes) (h : Kept n t list ls s) (hl : Allowed l)
    (hs : step formatF peer n t s l = some s') : Kept n t list (ls ++ [l]) s' := by
  have hbooks : ∀ i, run Lib.WriteAhead.step Book.empty ((ls ++ [l]).filterMap (eventAt i)) =
      some (bookAt i (ls ++ [l]) s') := by
    intro i
    rw [List.filterMap_append, filterMap_single, run_append, h.books i]
    exact bookAt_step hs
  cases l with
  | chain l =>
    obtain ⟨-, u, hu, rfl⟩ := step_chain.mp hs
    refine ⟨?_, control_step h.control hl hu, hbooks, h.pred, h.tellable, h.text⟩
    rw [chainLabels_append, run_append, h.chain]
    exact run_single _ hu
  | writeInServerLog j c r ts =>
    obtain ⟨⟨hc, -⟩, str, hstr, rfl⟩ := step_log.mp hs
    refine ⟨?_, h.control, hbooks, fun i => ?_, forall_calls h.tellable hl, fun i rest => ?_⟩
    · rw [chainLabels_append]
      exact (congrArg _ (List.append_nil _)).trans h.chain
    · refine forall_calls h.pred (fun hj hedit => ?_) i
      obtain ⟨i, rfl⟩ : ∃ i, j = i + 1 := ⟨j - 1, by omega⟩
      have hreq : ((s.chain.srv (i + 1)).phase c).request = some r := congrArg Phase.request hc
      exact h.control.write_pred hreq (needsForward_of_isEdit hedit)
    · rw [file_append rfl]
      dsimp only
      rw [Function.update_apply]
      split
      next =>
        have hline : ([(c, r)].map fun e => e.2.msg).filterMap told = (told r.msg).toList :=
          filterMap_single told r.msg
        rw [List.append_assoc, h.text, changes_request hf hl rfl hstr, List.map_append,
          List.filterMap_append, hline, List.append_assoc]
      next => exact h.text i rest
  | connection j c eventType ts =>
    obtain ⟨str, hstr, rfl⟩ := step_connection.mp hs
    refine ⟨?_, h.control, hbooks, h.pred, h.tellable, fun i rest => ?_⟩
    · rw [chainLabels_append]
      exact (congrArg _ (List.append_nil _)).trans h.chain
    · rw [file_append rfl]
      split
      next hij => rw [List.append_assoc, h.text, changes_connection hf rfl hstr, hij]
      next => exact h.text i rest

theorem kept_run (hf : ∀ x, Word (formatF x).bytes) (hallowed : ∀ l ∈ ls, Allowed l)
    (hrun : run (step formatF peer n t) (Logged.start n list) ls = some s) : Kept n t list ls s :=
  run_trace_invariant (step formatF peer n t) (G := fun _ => Allowed)
    (fun _ _ _ _ h hl hs => kept_step hf h hl hs) [] (kept_start n t list)
    (meets_of_labels _ hallowed _) hrun

theorem writesAt_chainLabels (i : Nat) (ls : List Label) :
    writesAt i (chainLabels ls) =
      ((executedAt i ls).filter fun e => needsForward e.2.msg).map Prod.snd := by
  induction ls with
  | nil => rfl
  | cons l ls ih =>
    rw [← List.singleton_append, chainLabels_append, executedAt_append, List.filter_append,
      List.map_append, ← ih, writesAt, executions, List.filterMap_append, own_append]
    congr 1
    cases l with
    | writeInServerLog | connection => rfl
    | chain l =>
      cases l with
      | invoke j c r =>
        by_cases hj : j = i <;> cases hr : needsForward r.msg <;>
          simp [chainLabels, writeOf, executedAt, own, hj, hr]
      | send | own | forward | back | answer => rfl

theorem edits_executedAt (i : Nat) (ls : List Label) : edits (executedAt i ls) =
    (writesAt i (chainLabels ls)).filter editing := by
  rw [writesAt_chainLabels, edits, List.filter_map, List.filter_filter]
  congr 2
  funext e
  cases he : editing e.2 with
  | false => simp [he]
  | true => simp [he, needsForward_of_isEdit he]

theorem models_executeAll (rs : List Request) {l l' : ListT} (h : models l = models l') :
    models (executeAll t l (rs.filter editing)) = models (executeAll t l' rs) := by
  induction rs generalizing l l' with
  | nil => exact h
  | cons r rs ih =>
    cases hr : editing r with
    | true =>
      rw [List.filter_cons_of_pos hr]
      exact ih (models_after_congr r.msg t h)
    | false =>
      rw [List.filter_cons_of_neg (by simp [hr])]
      simp only [editing, isEdit, Bool.or_eq_false_iff, decide_eq_false_iff_not] at hr
      refine ih (h.trans ?_)
      rw [models_eq_map, models_eq_map, cars_after_of_not_write hr.1 hr.2]

/-- Behind the head the log has the changes in the order of their executions,
and at most one more. -/
theorem edits_calls (h : Kept n t list ls s) (hi : 0 < i) : edits (s.calls i) =
    ((writesAt i (chainLabels ls)).filter editing) ++
      ((handAt s (i, .pred)).filter editing).toList := by
  rw [← edits_executedAt]
  exact (inOrder_run (h.books i)).filter fun e he hedit => h.pred i e he hi hedit

theorem models_writesAt {log : Log Request} (h : Recorded n t list (chainLabels ls) s.chain log)
    (hi : i < n) : models (s.chain.srv i).list = models (executeAll t list
      ((writesAt i (chainLabels ls)).filter editing)) := by
  rw [h.ordered.lists i hi, view_eq_writesAt h hi, models_executeAll _ rfl]

theorem hand_of_quiet (h : Control n s.chain) (hq : Quiet s.chain) (hi : 0 < i) :
    handAt s (i, .pred) = none := by
  obtain ⟨i, rfl⟩ : ∃ j, i = j + 1 := ⟨i - 1, by omega⟩
  have hnone : ((s.chain.srv (i + 1)).phase .pred).request = none := by
    refine Option.eq_none_iff_forall_not_mem.mpr fun r hr => ?_
    obtain ⟨c, hc⟩ := (h.link i r).mp hr
    exact quiet_below h hq i c r (by rw [hc]; rfl)
  rw [handAt, phaseAt]
  cases hp : (s.chain.srv (i + 1)).phase .pred with
  | idle => rfl
  | _ => rw [hp] at hnone; cases hnone

/-- The text tells the logged changes, and nothing else. -/
theorem changes_file (h : Kept n t list ls s) (i : Nat) :
    changes (s.file i) = ((edits (s.calls i)).map Request.msg).filterMap told := by
  have htext := h.text i []
  rw [List.append_nil, changes_nil, List.append_nil] at htext
  rw [htext, edits, List.map_map, List.filterMap_map, List.filterMap_map, List.filterMap_filter]
  refine List.filterMap_congr fun e _ => ?_
  cases hedit : editing e.2 with
  | true => rfl
  | false => exact told_of_not_isEdit hedit

theorem tellable_edits (h : Kept n t list ls s) :
    ∀ msg ∈ (edits (s.calls i)).map Request.msg, Tellable msg := by
  intro msg hmsg
  obtain ⟨r, hr, rfl⟩ := List.mem_map.mp hmsg
  obtain ⟨e, he, rfl⟩ := List.mem_map.mp hr
  exact h.tellable i e (List.mem_of_mem_filter he)

theorem executeAll_eq_replay (rs : List Request) :
    executeAll t list rs = replay t list (rs.map Request.msg) := by
  rw [executeAll, replay, List.foldl_map]

theorem mem_changes (h : Kept n t list ls s) {r : Request} (hr : r ∈ edits (s.calls i)) :
    ∃ msg ∈ changes (s.file i), told r.msg = some msg := by
  obtain ⟨e, he, rfl⟩ := List.mem_map.mp hr
  obtain ⟨hcall, hedit⟩ := List.mem_filter.mp he
  obtain ⟨msg, hmsg⟩ := told_of_isEdit (h.tellable i e hcall) hedit
  refine ⟨msg, ?_, hmsg⟩
  rw [changes_file h]
  exact List.mem_filterMap.mpr ⟨_, List.mem_map_of_mem hr, hmsg⟩

/-- The file that the writer of a server leaves which has seen all the lines. -/
theorem file_of_queue {acts : List LogQueue.Act} {q : LogQueue.State}
    (hrun : run LogQueue.step LogQueue.State.start acts = some q) (hended : q.writer = .ended)
    (hseen : q.seen = s.lines i) : q.file = s.file i := by
  rw [ServerLog.file_of_ended hrun hended, hseen, Logged.file]

end Runs

structure Tells (n : Nat) (t : AnoAtual) (list : ListT) (ls : List Label) (s : Logged) : Prop where
  order : ∀ i c, ∃ hand : Option Request,
    only c (s.calls i) = only c (executedAt i ls) ++ hand.toList
  restores : ∀ i, 0 < i → i < n → ∃ done, ∃ hand : Option MessageT,
    changes (s.file i) = done ++ hand.toList ∧
      models (s.chain.srv i).list = models (replay t list done)
  answered : ∀ i c r m, .chain (.answer i c r m) ∈ ls → editing r = true →
    ∀ j, j < n → ∃ msg ∈ changes (s.file j), told r.msg = some msg
  level : Quiet s.chain → ∀ i j, 0 < i → i < n → j < n →
    models (s.chain.srv j).list = models (replay t list (changes (s.file i)))

def arrive (c : Nat) (r : Request) (ts : Int) : List Label :=
  [.chain (.send 0 c r), .chain (.own 0 (.receive (.client c))),
    .writeInServerLog 0 (.client c) r ts]

def carryOut (c : Nat) (r : Request) (ts : Int) : List Label :=
  let d := Conn.client c
  [.chain (.own 0 (.lock d)), .chain (.own 0 (.link d)), .chain (.forward 0 d),
    .chain (.own 1 (.receive .pred)), .writeInServerLog 1 .pred r ts,
    .chain (.own 1 (.lock .pred)), .chain (.own 1 (.link .pred)), .chain (.own 1 (.alone .pred)),
    .chain (.invoke 1 .pred r), .chain (.own 1 (.release .pred)), .chain (.own 1 (.reply .pred)),
    .chain (.back 0 d), .chain (.invoke 0 d r), .chain (.own 0 (.release d)),
    .chain (.own 0 (.reply d))]

def addition : Request := ⟨0, toyotaRequest 2020⟩

def removal : Request := ⟨1, rlistRemoveByModelRequest (toyota 2020).modelo⟩

/-- The head logs an addition and then a removal, whose thread gets the list first. -/
def overtaken : List Label :=
  arrive 0 addition 1700000000 ++ arrive 1 removal 1700000000 ++
    carryOut 1 removal 1700000001 ++ carryOut 0 addition 1700000001 ++
    [.chain (.answer 0 0 addition (Skeleton.MessageT.added (toyotaRequest 2020)))]

def unknownPeer (_ : Nat) (_ : Conn) : Option Peer := none

end ListServer.Journal
