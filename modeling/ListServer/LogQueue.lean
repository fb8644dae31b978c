import ListServer.Lib.CTypes
import ListServer.Lib.Queue
import ListServer.Lib.Transition

namespace ListServer.LogQueue

open Lib.CTypes Lib.Pointer Lib.Loop Lib.Memory Lib.Queue Lib.Transition

/-- A `struct log_node`, whose text may be NULL. -/
abbrev LogNode := Node (Option CString)

/-- Where the writer thread stands: before its locked section or waiting in it,
with a node in its hands, within the loop around `write`, or at its end. -/
inductive Writer
  | locking
  | taken (node : Nat)
  | writing (node : Nat) (p : List UInt8)
  | ended
deriving DecidableEq

/-- The log with the nodes that the threads have made and not enqueued yet, and
what has happened to the lines: those enqueued so far, those enqueued when the
writer last held the lock, those that it has finished and those that
`close_server_log` has freed before it closed the file. -/
structure State where
  nodes : Heap LogNode
  logHead : Option Nat
  logTail : Option Nat
  writerRunning : Bool
  newNode : Nat → Option Nat
  writer : Writer
  file : List UInt8
  enqueued : List (Option CString)
  seen : List (Option CString)
  finished : List (Option CString)
  freed : List (Option CString)
  closed : Bool

def State.start : State :=
  ⟨fun _ => none, none, none, true, fun _ => none, .locking, [], [], [], [], [], false⟩

/-- The locked section of `write_in_server_log`. -/
def enqueue (s : State) (tid a : Nat) : Except Fault State := do
  let s := { s with
    newNode := Function.update s.newNode tid none
    enqueued := s.enqueued ++ (s.nodes a).toList.map Node.data }
  match s.logTail with
  | none => return { s with logHead := some a, logTail := some a }
  | some last =>
    let nodes ← modify s.nodes (some last) fun n => { n with next := some a }
    return { s with nodes := nodes, logTail := some a }

/-- The locked section of `handle_writing`. -/
def takeNode (s : State) : Except Fault State :=
  let s := { s with seen := s.enqueued }
  match s.logHead with
  | none => if s.writerRunning then .ok s else .ok { s with writer := .ended }
  | some node => do
    let n ← load s.nodes (some node)
    return { s with
      logHead := n.next
      logTail := if n.next = none then none else s.logTail
      writer := .taken node }

def text (str : Option CString) : List UInt8 := str.elim [] CString.bytes

def freeNode (s : State) (node : Nat) : Except Fault State := do
  let n ← load s.nodes (some node)
  let nodes ← free s.nodes (some node)
  return { s with nodes := nodes, writer := .locking, finished := s.finished ++ [n.data] }

/-- What `close_server_log` does once the writer has ended. -/
def freeAll (rounds : Nat) (s : State) : Option (Except Fault State) :=
  (loop freeStep rounds (s.nodes, s.logHead, s.freed)).map fun r => r.map fun (nodes, freed) =>
    { s with nodes := nodes, logHead := none, logTail := none, freed := freed, closed := true }

/-- The steps of the threads that log, of the writer and of `close_server_log`.
The numbers are the place that `malloc` finds, how much a `write` takes and the
rounds of the last loop. -/
inductive Act
  | make (tid place : Nat) (finalLine : Option CString)
  | enqueue (tid : Nat)
  | take
  | begin
  | write (w : Nat)
  | interrupted
  | finish
  | stop
  | freeAll (rounds : Nat)
deriving DecidableEq

def attempt (s : State) : Act → Option (Except Fault State)
  | .make tid place finalLine =>
    match s.newNode tid, malloc s.nodes (some place) with
    | none, some a => some (.ok { s with
        nodes := store s.nodes a ⟨finalLine, none⟩
        newNode := Function.update s.newNode tid (some a) })
    | _, _ => none
  | .enqueue tid =>
    match s.newNode tid with
    | some a => some (enqueue s tid a)
    | none => none
  | .take =>
    match s.writer with
    | .locking => some (takeNode s)
    | _ => none
  | .begin =>
    match s.writer with
    | .taken node => some ((load s.nodes (some node)).map fun n =>
        { s with writer := .writing node (text n.data) })
    | _ => none
  | .write w =>
    match s.writer with
    | .writing node (b :: p) =>
      if w ≤ (b :: p).length then some (.ok { s with
        writer := .writing node ((b :: p).drop w)
        file := s.file ++ (b :: p).take w })
      else none
    | _ => none
  | .interrupted =>
    match s.writer with
    | .writing _ (_ :: _) => some (.ok s)
    | _ => none
  | .finish =>
    match s.writer with
    | .writing node [] => some (freeNode s node)
    | _ => none
  | .stop => some (.ok { s with writerRunning := false })
  | .freeAll rounds =>
    match s.writer with
    | .ended => freeAll rounds s
    | _ => none

def step (s : State) (a : Act) : Option State := (attempt s a).bind Except.toOption

def Writer.node : Writer → Option Nat
  | .taken node | .writing node _ => some node
  | .locking | .ended => none

def State.inHand (s : State) : List (Option CString) :=
  (s.writer.node.bind s.nodes).toList.map Node.data

def State.unwritten (s : State) : List UInt8 :=
  match s.writer with
  | .writing _ p => p
  | _ => s.inHand.flatMap text

/-- The nodes: those in the queue, those that the threads have made and the
writer's are apart. -/
structure Apart (s : State) (cells : List (Nat × Option CString)) : Prop where
  queue : Queued s.nodes s.logHead s.logTail cells
  made : ∀ tid a, s.newNode tid = some a →
    (∃ d, s.nodes a = some ⟨d, none⟩) ∧ a ∉ cells.map Prod.fst ∧ s.writer.node ≠ some a
  single : ∀ tid tid' a, s.newNode tid = some a → s.newNode tid' = some a → tid = tid'
  hand : ∀ a, s.writer.node = some a → s.nodes a ≠ none ∧ a ∉ cells.map Prod.fst

/-- The lines: each is where its turn puts it, and the file has what is written. -/
structure InTurn (s : State) (queued : List (Option CString)) : Prop where
  lines : s.finished ++ s.inHand ++ s.freed ++ queued = s.enqueued
  file : ∃ written, s.file = s.finished.flatMap text ++ written ∧
    written ++ s.unwritten = s.inHand.flatMap text
  kept : s.writer ≠ .ended ∨ s.closed = false → s.freed = []
  ended : s.writer = .ended → s.finished = s.seen

def Sound (s : State) : Prop := ∃ cells, Apart s cells ∧ InTurn s (cells.map Prod.snd)

theorem sound_start : Sound State.start :=
  ⟨[], ⟨.empty _, nofun, nofun, nofun⟩, ⟨rfl, ⟨[], rfl, rfl⟩, fun _ => rfl, nofun⟩⟩

section Steps

variable {s t : State} {cells : List (Nat × Option CString)} {queued : List (Option CString)}

theorem Apart.congr (h : Apart s cells) (hnodes : t.nodes = s.nodes)
    (hhead : t.logHead = s.logHead) (htail : t.logTail = s.logTail)
    (hnew : t.newNode = s.newNode) (hw : t.writer.node = s.writer.node) : Apart t cells := by
  obtain ⟨hqueue, hmade, hsingle, hhand⟩ := h
  refine ⟨?_, ?_, ?_, ?_⟩
  · rwa [hnodes, hhead, htail]
  · rwa [hnodes, hnew, hw]
  · rwa [hnew]
  · rwa [hnodes, hw]

theorem InTurn.congr (h : InTurn s queued) (new : List (Option CString))
    (hw : t.writer = s.writer) (hn : ∀ a, s.writer.node = some a → t.nodes a = s.nodes a)
    (henq : t.enqueued = s.enqueued ++ new) (hfile : t.file = s.file)
    (hfin : t.finished = s.finished) (hfreed : t.freed = s.freed) (hseen : t.seen = s.seen)
    (hclosed : t.closed = s.closed) :
    InTurn t (queued ++ new) := by
  have hhand : t.inHand = s.inHand := by
    rw [State.inHand, State.inHand, hw]
    cases hnode : s.writer.node with
    | none => rfl
    | some a => rw [Option.bind_some, Option.bind_some, hn a hnode]
  have hunwritten : t.unwritten = s.unwritten := by
    rw [State.unwritten, State.unwritten, hw, hhand]
  refine ⟨?_, ?_, ?_, ?_⟩
  · rw [hfin, hhand, hfreed, henq, ← h.lines, List.append_assoc _ queued new]
  · rw [hfile, hunwritten, hfin, hhand]
    exact h.file
  · rw [hw, hfreed, hclosed]
    exact h.kept
  · rw [hw, hfin, hseen]
    exact h.ended

theorem sound_make (h : Sound s) {tid a : Nat} {place : Option Nat}
    (hmalloc : malloc s.nodes place = some a) (finalLine : Option CString) :
    Sound { s with
      nodes := store s.nodes a ⟨finalLine, none⟩
      newNode := Function.update s.newNode tid (some a) } := by
  obtain ⟨cells, h, hturn⟩ := h
  have hfree := malloc_eq_some hmalloc
  have hother : ∀ b, s.nodes b ≠ none → store s.nodes a ⟨finalLine, none⟩ b = s.nodes b := by
    intro b hb
    refine store_of_ne ?_ _
    rintro rfl
    exact hb hfree
  have hmade : ∀ u b, s.newNode u = some b → b ≠ a := by
    rintro u b hu rfl
    obtain ⟨⟨d, hd⟩, -⟩ := h.made u b hu
    rw [hfree] at hd
    cases hd
  refine ⟨cells, ⟨?_, ?_, ?_, ?_⟩, ?_⟩
  · exact h.queue.congr fun b hb => hother b (h.queue.allocated hb)
  · intro u b hu
    by_cases hut : u = tid
    · subst hut
      obtain rfl : a = b := by simpa using hu
      refine ⟨⟨finalLine, store_self ..⟩, fun hm => h.queue.allocated hm hfree, fun hw => ?_⟩
      exact (h.hand a hw).1 hfree
    · have hu' : s.newNode u = some b := by simpa [hut] using hu
      obtain ⟨⟨d, hd⟩, hrest⟩ := h.made u b hu'
      exact ⟨⟨d, (store_of_ne (hmade u b hu') _).trans hd⟩, hrest⟩
  · intro u v b hu hv
    by_cases hut : u = tid <;> by_cases hvt : v = tid
    · rw [hut, hvt]
    · obtain rfl : a = b := by simpa [hut] using hu
      exact absurd rfl (hmade v a (by simpa [hvt] using hv))
    · obtain rfl : a = b := by simpa [hvt] using hv
      exact absurd rfl (hmade u a (by simpa [hut] using hu))
    · exact h.single u v b (by simpa [hut] using hu) (by simpa [hvt] using hv)
  · intro b hb
    obtain ⟨hnode, hnot⟩ := h.hand b hb
    exact ⟨(hother b hnode).trans_ne hnode, hnot⟩
  · have hkeep := hturn.congr (t := { s with
      nodes := store s.nodes a ⟨finalLine, none⟩
      newNode := Function.update s.newNode tid (some a) }) []
      rfl (fun b hb => hother b (h.hand b hb).1) (List.append_nil _).symm rfl rfl rfl rfl rfl
    rwa [List.append_nil] at hkeep

theorem enqueue_eq (h : Apart s cells) (tid : Nat) {a : Nat} {d : Option CString}
    (hd : s.nodes a = some ⟨d, none⟩) (hnew : a ∉ cells.map Prod.fst) :
    ∃ nodes head, enqueue s tid a = .ok { s with
        nodes := nodes
        logHead := head
        logTail := some a
        newNode := Function.update s.newNode tid none
        enqueued := s.enqueued ++ [d] } ∧
      Queued nodes head (some a) (cells ++ [(a, d)]) ∧
      ∀ b, b ∉ cells.map Prod.fst → nodes b = s.nodes b := by
  have hq := h.queue
  rw [enqueue, hd]
  cases htail : s.logTail with
  | none =>
    rw [htail] at hq
    exact ⟨s.nodes, some a, rfl, hq.first hd, fun _ _ => rfl⟩
  | some last =>
    rw [htail] at hq
    obtain ⟨node, hlast, hlink⟩ := hq.link hd hnew
    refine ⟨_, s.logHead, ?_, hlink, fun b hb => store_of_ne ?_ _⟩
    · simp [modify_some hlast, bind, Except.bind, pure, Except.pure]
    · obtain ⟨front, e, rfl⟩ := hq.tail_eq_some rfl
      rintro rfl
      exact hb (by simp)

theorem sound_enqueue (h : Sound s) {tid a : Nat} (ha : s.newNode tid = some a) :
    ∃ t, enqueue s tid a = .ok t ∧ Sound t := by
  obtain ⟨cells, h, hturn⟩ := h
  obtain ⟨⟨d, hd⟩, hnew, hwriter⟩ := h.made tid a ha
  obtain ⟨nodes, head, hok, hqueue, hkeep⟩ := enqueue_eq h tid hd hnew
  have hnot : ∀ b, b ∉ cells.map Prod.fst → b ≠ a → b ∉ (cells ++ [(a, d)]).map Prod.fst := by
    intro b hb hne
    rw [List.map_append, List.mem_append, not_or]
    exact ⟨hb, by simpa using hne⟩
  have hother : ∀ u b, Function.update s.newNode tid none u = some b →
      u ≠ tid ∧ s.newNode u = some b := by
    intro u b hu
    by_cases hut : u = tid
    · subst hut
      simp at hu
    · exact ⟨hut, by simpa [hut] using hu⟩
  refine ⟨_, hok, cells ++ [(a, d)], ⟨hqueue, ?_, ?_, ?_⟩, ?_⟩
  · intro u b hu
    obtain ⟨hut, hu'⟩ := hother u b hu
    obtain ⟨⟨e, he⟩, hb, hw⟩ := h.made u b hu'
    refine ⟨⟨e, (hkeep b hb).trans he⟩, hnot b hb ?_, hw⟩
    rintro rfl
    exact hut (h.single u tid b hu' ha)
  · intro u v b hu hv
    exact h.single u v b (hother u b hu).2 (hother v b hv).2
  · intro b hb
    obtain ⟨hnode, hb'⟩ := h.hand b hb
    refine ⟨(hkeep b hb').trans_ne hnode, hnot b hb' ?_⟩
    rintro rfl
    exact hwriter hb
  · rw [List.map_append]
    exact hturn.congr [d] rfl (fun b hb => hkeep b (h.hand b hb).2) rfl rfl rfl rfl rfl rfl

theorem inTurn_idle (hw : s.writer.node = none) : InTurn s queued ↔
    (s.finished ++ s.freed ++ queued = s.enqueued ∧ s.file = s.finished.flatMap text) ∧
      (s.writer ≠ .ended ∨ s.closed = false → s.freed = []) ∧
      (s.writer = .ended → s.finished = s.seen) := by
  have hhand : s.inHand = [] := by
    rw [State.inHand, hw]
    rfl
  constructor
  · rintro ⟨hlines, ⟨written, hfile, hpart⟩, hkept, hended⟩
    rw [hhand, List.append_nil] at hlines
    rw [hhand] at hpart
    obtain ⟨rfl, -⟩ := List.append_eq_nil_iff.mp hpart
    rw [List.append_nil] at hfile
    exact ⟨⟨hlines, hfile⟩, hkept, hended⟩
  · rintro ⟨⟨hlines, hfile⟩, hkept, hended⟩
    refine ⟨?_, ⟨[], ?_, ?_⟩, hkept, hended⟩
    · rw [hhand, List.append_nil, hlines]
    · rw [List.append_nil, hfile]
    · rw [State.unwritten, hhand]
      cases hs : s.writer <;> simp_all [Writer.node]

theorem inTurn_busy {a : Nat} {n : LogNode} (hw : s.writer.node = some a)
    (hn : s.nodes a = some n) : InTurn s queued ↔
    (s.finished ++ n.data :: queued = s.enqueued ∧ ∃ written,
      s.file = s.finished.flatMap text ++ written ∧ written ++ s.unwritten = text n.data) ∧
      s.freed = [] := by
  have hhand : s.inHand = [n.data] := by
    rw [State.inHand, hw, Option.bind_some, hn]
    rfl
  have hrunning : s.writer ≠ .ended := by
    intro he
    rw [he] at hw
    cases hw
  constructor
  · rintro ⟨hlines, hfile, hkept, -⟩
    rw [hhand, hkept (.inl hrunning), List.append_nil, List.append_assoc] at hlines
    rw [hhand, List.flatMap_singleton] at hfile
    exact ⟨⟨hlines, hfile⟩, hkept (.inl hrunning)⟩
  · rintro ⟨⟨hlines, hfile⟩, hfreed⟩
    refine ⟨?_, ?_, fun _ => hfreed, fun he => absurd he hrunning⟩
    · rw [hhand, hfreed, List.append_nil, List.append_assoc]
      exact hlines
    · rw [hhand, List.flatMap_singleton]
      exact hfile

theorem unwritten_taken {a : Nat} {n : LogNode} (hw : s.writer = .taken a)
    (hn : s.nodes a = some n) : s.unwritten = text n.data := by
  rw [State.unwritten, hw, State.inHand, hw, Writer.node, Option.bind_some, hn]
  exact List.append_nil _

/-- A writer that ends has found the queue empty, so all lines before are finished. -/
theorem sound_takeNode (h : Sound s) (hw : s.writer = .locking) :
    ∃ t, takeNode s = .ok t ∧ Sound t := by
  obtain ⟨cells, h, hturn⟩ := h
  obtain ⟨⟨hlines, hfile⟩, hkept, -⟩ := (inTurn_idle (by rw [hw, Writer.node])).mp hturn
  have hfreed : s.freed = [] := hkept (.inl (by simp [hw]))
  rw [hfreed, List.append_nil] at hlines
  cases hhead : s.logHead with
  | none =>
    obtain rfl := h.queue.head_eq_none.mp hhead
    cases hrun : s.writerRunning with
    | true =>
      refine ⟨{ s with seen := s.enqueued }, by simp [takeNode, hhead, hrun], [],
        h.congr rfl rfl rfl rfl rfl, (inTurn_idle (by rw [hw, Writer.node])).mpr ?_⟩
      exact ⟨⟨by rwa [hfreed, List.append_nil], hfile⟩, hkept, fun he => by simp [hw] at he⟩
    | false =>
      refine ⟨{ s with seen := s.enqueued, writer := .ended }, by simp [takeNode, hhead, hrun], [],
        ⟨h.queue, fun tid a ha => ?_, h.single, nofun⟩, (inTurn_idle rfl).mpr ?_⟩
      · obtain ⟨hd, hnot, -⟩ := h.made tid a ha
        exact ⟨hd, hnot, nofun⟩
      · have hall : s.finished = s.enqueued := by simpa using hlines
        exact ⟨⟨by rwa [hfreed, List.append_nil], hfile⟩, fun _ => hfreed, fun _ => hall⟩
  | some node =>
    have hq := h.queue
    rw [hhead] at hq
    have hnodup := hq.nodup
    obtain ⟨d, next, rest, rfl, hnode, hrest⟩ := hq.takeFirst
    rw [List.map_cons, List.nodup_cons] at hnodup
    refine ⟨{ s with
      seen := s.enqueued
      logHead := next
      logTail := if next = none then none else s.logTail
      writer := .taken node }, ?_, rest, ⟨hrest, fun tid a ha => ?_, h.single, fun a ha => ?_⟩, ?_⟩
    · simp [takeNode, hhead, load_some hnode, bind, Except.bind, pure, Except.pure]
    · obtain ⟨hd, hnot, -⟩ := h.made tid a ha
      rw [List.map_cons, List.mem_cons, not_or] at hnot
      exact ⟨hd, hnot.2, fun he => hnot.1 (Option.some.inj he).symm⟩
    · obtain rfl : node = a := Option.some.inj ha
      exact ⟨by simp [hnode], hnodup.1⟩
    · refine (inTurn_busy (a := node) (n := ⟨d, next⟩) ?_ ?_).mpr ⟨⟨hlines, ?_⟩, hfreed⟩
      · rfl
      · exact hnode
      · refine ⟨[], by rw [List.append_nil, hfile], ?_⟩
        refine (List.nil_append _).trans (unwritten_taken (a := node) (n := ⟨d, next⟩) ?_ ?_)
        · rfl
        · exact hnode

theorem Sound.inHand (h : Sound s) {node : Nat} (hnode : s.writer.node = some node) :
    ∃ cells n, (Apart s cells ∧ s.nodes node = some n ∧ node ∉ cells.map Prod.fst) ∧
      (s.finished ++ n.data :: cells.map Prod.snd = s.enqueued ∧ s.freed = []) ∧
      ∃ written, s.file = s.finished.flatMap text ++ written ∧
        written ++ s.unwritten = text n.data := by
  obtain ⟨cells, h, hturn⟩ := h
  obtain ⟨hne, hnot⟩ := h.hand node hnode
  obtain ⟨n, hn⟩ := Option.ne_none_iff_exists'.mp hne
  obtain ⟨⟨hlines, hfile⟩, hfreed⟩ := (inTurn_busy hnode hn).mp hturn
  exact ⟨cells, n, ⟨h, hn, hnot⟩, ⟨hlines, hfreed⟩, hfile⟩

theorem sound_begin (h : Sound s) {node : Nat} (hw : s.writer = .taken node) :
    ∃ n, s.nodes node = some n ∧ Sound { s with writer := .writing node (text n.data) } := by
  have hnode : s.writer.node = some node := by rw [hw, Writer.node]
  obtain ⟨cells, n, ⟨h, hn, -⟩, ⟨hlines, hfreed⟩, written, hfile, hpart⟩ := h.inHand hnode
  rw [unwritten_taken hw hn] at hpart
  refine ⟨n, hn, cells, h.congr rfl rfl rfl rfl hnode.symm, ?_⟩
  refine (inTurn_busy (a := node) (n := n) ?_ ?_).mpr ⟨⟨hlines, written, hfile, ?_⟩, hfreed⟩
  · rfl
  · exact hn
  · exact hpart

/-- What a `write` takes goes from the text to the file. -/
theorem sound_write (h : Sound s) {node : Nat} {p : List UInt8} (hw : s.writer = .writing node p)
    (w : Nat) :
    Sound { s with writer := .writing node (p.drop w), file := s.file ++ p.take w } := by
  have hnode : s.writer.node = some node := by rw [hw, Writer.node]
  obtain ⟨cells, n, ⟨h, hn, -⟩, ⟨hlines, hfreed⟩, written, hfile, hpart⟩ := h.inHand hnode
  rw [State.unwritten, hw] at hpart
  refine ⟨cells, h.congr rfl rfl rfl rfl hnode.symm, ?_⟩
  refine (inTurn_busy (a := node) (n := n) ?_ ?_).mpr
    ⟨⟨hlines, written ++ p.take w, ?_, ?_⟩, hfreed⟩
  · rfl
  · exact hn
  · rw [hfile, List.append_assoc]
  · rw [State.unwritten, List.append_assoc, List.take_append_drop]
    exact hpart

theorem sound_freeNode (h : Sound s) {node : Nat} (hw : s.writer = .writing node []) :
    ∃ t, freeNode s node = .ok t ∧ Sound t := by
  have hnode : s.writer.node = some node := by rw [hw, Writer.node]
  obtain ⟨cells, n, ⟨h, hn, hnot⟩, ⟨hlines, hfreed⟩, written, hfile, hpart⟩ := h.inHand hnode
  rw [State.unwritten, hw, List.append_nil] at hpart
  refine ⟨{ s with
    nodes := Function.update s.nodes node none
    writer := .locking
    finished := s.finished ++ [n.data] }, ?_, cells, ⟨?_, fun tid a ha => ?_, h.single, nofun⟩, ?_⟩
  · simp [freeNode, load_some hn, free_some hn, bind, Except.bind, pure, Except.pure]
  · refine h.queue.congr fun a ha => Function.update_of_ne ?_ _ _
    rintro rfl
    exact hnot ha
  · obtain ⟨⟨d, hd⟩, hnew, hother⟩ := h.made tid a ha
    have hne : a ≠ node := by
      rintro rfl
      exact hother hnode
    exact ⟨⟨d, (Function.update_of_ne hne _ _).trans hd⟩, hnew, nofun⟩
  · refine (inTurn_idle ?_).mpr ⟨⟨?_, ?_⟩, fun _ => hfreed, nofun⟩
    · rfl
    · rw [hfreed, List.append_nil, List.append_assoc]
      exact hlines
    · rw [List.flatMap_append, List.flatMap_singleton, ← hpart]
      exact hfile

theorem sound_stop (h : Sound s) : Sound { s with writerRunning := false } := by
  obtain ⟨cells, h, hturn⟩ := h
  have hkeep := hturn.congr (t := { s with writerRunning := false }) [] rfl (fun _ _ => rfl)
    (List.append_nil _).symm rfl rfl rfl rfl rfl
  rw [List.append_nil] at hkeep
  exact ⟨cells, h.congr rfl rfl rfl rfl rfl, hkeep⟩

/-- The loop of `close_server_log` ends and frees the lines that came too late. -/
theorem gives_freeAll (h : Sound s) (hw : s.writer = .ended) :
    ∃ t, Gives (fun rounds => freeAll rounds s) (.ok t) ∧ Sound t := by
  obtain ⟨cells, h, hturn⟩ := h
  obtain ⟨⟨hlines, hfile⟩, -, hended⟩ := (inTurn_idle (by rw [hw, Writer.node])).mp hturn
  obtain ⟨nodes, hends, hkeep⟩ := ends_free h.queue.chain s.freed
  obtain ⟨n, hn⟩ := gives_of_ends _ hends
  refine ⟨{ s with
    nodes := nodes
    logHead := none
    logTail := none
    freed := s.freed ++ cells.map Prod.snd
    closed := true }, ⟨n, fun m hm => ?_⟩, [],
    ⟨.empty _, fun tid a ha => ?_, h.single, fun a ha => ?_⟩, ?_⟩
  · have hloop : loop freeStep m (s.nodes, s.logHead, s.freed) = _ := hn m hm
    simp only [freeAll, hloop]
    rfl
  · obtain ⟨⟨d, hd⟩, hnew, hother⟩ := h.made tid a ha
    exact ⟨⟨d, (hkeep a hnew).trans hd⟩, nofun, hother⟩
  · rw [hw] at ha
    cases ha
  · refine (inTurn_idle ?_).mpr ⟨⟨?_, hfile⟩, fun hor => ?_, hended⟩
    · rw [hw, Writer.node]
    · rw [List.map_nil, List.append_nil, ← List.append_assoc]
      exact hlines
    · exact absurd hw (hor.resolve_right nofun)

/-- No locked section reads freed memory, and each keeps the queue. -/
theorem sound_attempt (h : Sound s) {a : Act} {r : Except Fault State}
    (hr : attempt s a = some r) : ∃ t, r = .ok t ∧ Sound t := by
  cases a with
  | make tid place finalLine =>
    simp only [attempt] at hr
    cases hnone : s.newNode tid with
    | some a => simp [hnone] at hr
    | none =>
      cases hmalloc : malloc s.nodes (some place) with
      | none => simp [hnone, hmalloc] at hr
      | some a =>
        simp only [hnone, hmalloc, Option.some.injEq] at hr
        exact ⟨_, hr.symm, sound_make h hmalloc finalLine⟩
  | enqueue tid =>
    simp only [attempt] at hr
    cases hnew : s.newNode tid with
    | none => simp [hnew] at hr
    | some a =>
      simp only [hnew, Option.some.injEq] at hr
      obtain ⟨t, ht, hsound⟩ := sound_enqueue h hnew
      exact ⟨t, hr.symm.trans ht, hsound⟩
  | take =>
    cases hw : s.writer <;> simp only [attempt, hw, Option.some.injEq, reduceCtorEq] at hr
    obtain ⟨t, ht, hsound⟩ := sound_takeNode h hw
    exact ⟨t, hr.symm.trans ht, hsound⟩
  | begin =>
    cases hw : s.writer <;> simp only [attempt, hw, Option.some.injEq, reduceCtorEq] at hr
    obtain ⟨n, hn, hsound⟩ := sound_begin h hw
    rw [load_some hn] at hr
    exact ⟨_, hr.symm, hsound⟩
  | write w =>
    simp only [attempt] at hr
    split at hr
    · split at hr
      · exact ⟨_, (Option.some.inj hr).symm, sound_write h ‹_› w⟩
      · cases hr
    · cases hr
  | interrupted =>
    simp only [attempt] at hr
    split at hr
    · exact ⟨s, (Option.some.inj hr).symm, h⟩
    · cases hr
  | finish =>
    simp only [attempt] at hr
    split at hr
    · obtain ⟨t, ht, hsound⟩ := sound_freeNode h ‹_›
      exact ⟨t, (Option.some.inj hr).symm.trans ht, hsound⟩
    · cases hr
  | stop => exact ⟨_, (Option.some.inj hr).symm, sound_stop h⟩
  | freeAll rounds =>
    cases hw : s.writer <;> simp only [attempt, hw, reduceCtorEq] at hr
    obtain ⟨t, ⟨n, hn⟩, hsound⟩ := gives_freeAll h hw
    obtain ⟨q, hq, rfl⟩ := Option.map_eq_some_iff.mp hr
    have hlarge : freeAll (max n rounds) s = _ := hn (max n rounds) (by omega)
    rw [freeAll, loop_mono _ (Nat.le_max_right n rounds) hq] at hlarge
    exact ⟨t, Option.some.inj hlarge, hsound⟩

theorem sound_step (h : Sound s) {a : Act} (ht : step s a = some t) : Sound t := by
  obtain ⟨r, hr, hok⟩ := Option.bind_eq_some_iff.mp ht
  obtain ⟨u, rfl, hsound⟩ := sound_attempt h hr
  obtain rfl : u = t := Option.some.inj hok
  exact hsound

end Steps

/-- The threads, the writer and `close_server_log` never use a node that is freed. -/
theorem never_faults (acts : List Act) (s : State) (h : run step State.start acts = some s)
    (a : Act) (r : Except Fault State) (hr : attempt s a = some r) : ∃ t, r = .ok t := by
  have hsound : Sound s :=
    run_invariant_of_step step (fun _ _ _ hs ht => sound_step hs ht) sound_start h
  obtain ⟨t, ht, -⟩ := sound_attempt hsound hr
  exact ⟨t, ht⟩

/-- In every state that the threads, the writer and `close_server_log` can reach,
the two pointers of the queue agree, every line is at its turn or has come too
late, and the file has the finished lines and what is written of the next. A
writer that has ended has written all lines that it could see. -/
theorem lines_in_order (acts : List Act) (s : State) (h : run step State.start acts = some s) :
    (s.logHead = none ↔ s.logTail = none) ∧
      (∃ cells, Seg s.nodes s.logHead cells none ∧
        (∀ a, s.logTail = some a → ∃ front d, cells = front ++ [(a, d)]) ∧
        s.finished ++ s.inHand ++ s.freed ++ cells.map Prod.snd = s.enqueued) ∧
      (s.closed = false → s.freed = []) ∧
      (∃ written, s.file = s.finished.flatMap text ++ written ∧
        written ++ s.unwritten = s.inHand.flatMap text) ∧
      (s.writer = .ended → s.finished = s.seen ∧ s.file = s.seen.flatMap text) := by
  obtain ⟨cells, hapart, hturn⟩ :=
    run_invariant_of_step step (fun _ _ _ hs ht => sound_step hs ht) sound_start h
  have hq := hapart.queue
  refine ⟨hq.head_eq_none.trans hq.tail_eq_none.symm,
    ⟨cells, hq.chain, fun a => hq.tail_eq_some, hturn.lines⟩, fun hc => hturn.kept (.inr hc),
    hturn.file, fun he => ?_⟩
  have hidle := (inTurn_idle (by rw [he, Writer.node])).mp hturn
  have hall := hturn.ended he
  exact ⟨hall, hall ▸ hidle.1.2⟩

/-- Two threads log a text and a line without one, a write is short, and a third
line comes after the writer has ended. -/
def lateLine : List Act :=
  [.make 0 7 (some (ofBytes [72, 105])), .make 1 8 none, .enqueue 1, .enqueue 0, .take, .begin,
    .finish, .make 1 8 (some (ofBytes [33])), .take, .begin, .write 1, .interrupted, .stop,
    .write 1, .finish, .take, .enqueue 1]

theorem lines_in_order_late : ∃ s, run step State.start lateLine = some s ∧
    (s.writer = .ended ∧ s.file = [72, 105] ∧ s.logHead = some 8 ∧ s.closed = false) ∧
      (s.logHead = none ↔ s.logTail = none) ∧
      (s.writer = .ended → s.finished = s.seen ∧ s.file = s.seen.flatMap text) := by
  obtain ⟨s, hs, hrest⟩ : ∃ s, run step State.start lateLine = some s ∧
      s.writer = .ended ∧ s.file = [72, 105] ∧ s.logHead = some 8 ∧ s.closed = false :=
    ⟨_, rfl, by decide⟩
  obtain ⟨hpointers, -, -, -, hended⟩ := lines_in_order lateLine s hs
  exact ⟨s, hs, hrest, hpointers, hended⟩

end ListServer.LogQueue
