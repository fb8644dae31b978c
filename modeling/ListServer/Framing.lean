import ListServer.Lib.Loop
import ListServer.Lib.Stream
import Mathlib.Algebra.Order.Ring.Int

namespace ListServer.Framing

open Lib.Loop Lib.Stream

/-- What `read` or `write` returned and the value of `errno` after it. -/
structure SysResult (β : Type) where
  ret : Int
  value : β
  errno : Int

def eintr : Int := 4

/-- The loop variables of `read_all`: the bytes in the buffer, `total` of them,
and the state of the socket. -/
structure Reading (σ : Type) where
  buf : List UInt8
  sock : σ

section ReadAll

variable {σ : Type} (read : σ → Nat → SysResult (List UInt8) × σ)

/-- One round of `read_all`; the result is the returned number and the buffer. -/
def readRound (len : Nat) (s : Reading σ) : Reading σ ⊕ (Int × Reading σ) :=
  let total := s.buf.length
  if total < len then
    let (r, sock) := read s.sock (len - total)
    if r.ret ≤ 0 then
      if r.errno = eintr then .inl ⟨s.buf, sock⟩ else .inr (-1, ⟨s.buf, sock⟩)
    else .inl ⟨s.buf ++ r.value, sock⟩
  else .inr (total, s)

def readAll (fuel len : Nat) (sock : σ) : Option (Int × Reading σ) :=
  loop (readRound read len) fuel ⟨[], sock⟩

end ReadAll

structure Writing (σ : Type) where
  total : Nat
  sock : σ

section WriteAll

variable {σ : Type} (write : σ → List UInt8 → SysResult Nat × σ)

def writeRound (buf : List UInt8) (s : Writing σ) : Writing σ ⊕ (Int × σ) :=
  if s.total < buf.length then
    let (r, sock) := write s.sock (buf.drop s.total)
    if r.ret ≤ 0 then
      if r.errno = eintr then .inl ⟨s.total, sock⟩ else .inr (-1, sock)
    else .inl ⟨s.total + r.value, sock⟩
  else .inr (s.total, s.sock)

def writeAll (fuel : Nat) (buf : List UInt8) (sock : σ) : Option (Int × σ) :=
  loop (writeRound write buf) fuel ⟨0, sock⟩

end WriteAll

structure Codec (M : Type) where
  pack : M → List UInt8
  unpack : List UInt8 → Option M
  unpack_pack : ∀ m, unpack (pack m) = some m

/-- The two bytes of a 16-bit number in network order. -/
def htons (len : Nat) : List UInt8 := [UInt8.ofNat (len / 256), UInt8.ofNat (len % 256)]

def ntohs : List UInt8 → Nat
  | [a, b] => a.toNat * 256 + b.toNat
  | _ => 0

section Messages

variable {M σ : Type} (codec : Codec M)

def networkReceive (read : σ → Nat → SysResult (List UInt8) × σ) (fuel : Nat) (sock : σ) :
    Option (Option M × σ) := do
  let (n, netLen) ← readAll read fuel 2 sock
  if n ≠ 2 then return (none, netLen.sock)
  let len := ntohs netLen.buf
  if len = 0 then return (none, netLen.sock)
  let (n, buffer) ← readAll read fuel len netLen.sock
  if n ≠ len then return (none, buffer.sock)
  return (codec.unpack buffer.buf, buffer.sock)

def networkSend (write : σ → List UInt8 → SysResult Nat × σ) (fuel : Nat) (msg : M) (sock : σ) :
    Option (Int × σ) := do
  let len := (codec.pack msg).length
  if len = 0 ∨ len > 0xFFFF then return (-1, sock)
  let (n, sock) ← writeAll write fuel (htons len) sock
  if n ≠ 2 then return (-1, sock)
  let (n, sock) ← writeAll write fuel (codec.pack msg) sock
  if n ≠ len then return (-1, sock)
  return (0, sock)

/-- The first half of `network_send_receive`: `false` if it returns NULL before
it waits for the answer. -/
def networkSendReceive (write : σ → List UInt8 → SysResult Nat × σ) (fuel : Nat) (msg : M)
    (sock : σ) : Option (Bool × σ) := do
  let packedSize := (codec.pack msg).length
  if packedSize = 0 then return (false, sock)
  if packedSize > 0xFFFF then return (false, sock)
  let (n, sock) ← writeAll write fuel (htons packedSize) sock
  if n ≠ 2 then return (false, sock)
  let (n, sock) ← writeAll write fuel (codec.pack msg) sock
  if n ≠ packedSize then return (false, sock)
  return (true, sock)

inductive Sender
  | server
  | client
deriving DecidableEq, Repr

def Sender.send (write : σ → List UInt8 → SysResult Nat × σ) (fuel : Nat) (msg : M) (sock : σ) :
    Sender → Option (Bool × σ)
  | .server => (networkSend codec write fuel msg sock).map fun r => (decide (r.1 = 0), r.2)
  | .client => networkSendReceive codec write fuel msg sock

def sendMany (write : σ → List UInt8 → SysResult Nat × σ) (fuel : Nat) :
    List (Sender × M) → σ → Option (Bool × σ)
  | [], sock => some (true, sock)
  | (sender, msg) :: msgs, sock => do
    let (sent, sock) ← sender.send codec write fuel msg sock
    if !sent then return (false, sock)
    sendMany write fuel msgs sock

def receiveMany (read : σ → Nat → SysResult (List UInt8) × σ) (fuel : Nat) :
    Nat → σ → Option (List (Option M) × σ)
  | 0, sock => some ([], sock)
  | n + 1, sock => do
    let (msg, sock) ← networkReceive codec read fuel sock
    let (msgs, sock) ← receiveMany read fuel n sock
    return (msg :: msgs, sock)

end Messages

/-- `read` on a socket. `errno` is looked at when there is no data, where it has
the value that earlier calls have left. -/
def sockRead (w : Schedule) (errnoAtEnd : Int) (s : Source UInt8) (len : Nat) :
    SysResult (List UInt8) × Source UInt8 :=
  match s.read w len with
  | (none, s) => (⟨-1, [], eintr⟩, s)
  | (some bytes, s) => (⟨bytes.length, bytes, errnoAtEnd⟩, s)

def sockWrite (w : Schedule) (s : Sink UInt8) (data : List UInt8) :
    SysResult Nat × Sink UInt8 :=
  match s.write w data with
  | (none, s) => (⟨-1, 0, eintr⟩, s)
  | (some n, s) => (⟨n, n, 0⟩, s)

theorem readAll_ends (w : Schedule) {e : Int} (len : Nat) (sock : Source UInt8)
    (he : e ≠ eintr ∨ len ≤ sock.input.length) :
    ∃ r, Ends (readRound (sockRead w e) len) ⟨[], sock⟩ r ∧
      if len ≤ sock.input.length
      then r.1 = len ∧ r.2.buf = sock.input.take len ∧ r.2.sock.input = sock.input.drop len
      else r.1 = -1 := by
  refine ends_of_measure _
    (I := fun s => s.buf ++ s.sock.input = sock.input ∧ s.buf.length ≤ len)
    (fun s => (w.bound - s.sock.calls) + (len - s.buf.length)) (fun s hs => ?_)
    ⟨rfl, Nat.zero_le len⟩
  obtain ⟨hinput, hle⟩ := hs
  have hlen := congrArg List.length hinput
  rw [List.length_append] at hlen
  rw [readRound]
  by_cases htotal : s.buf.length < len
  · rw [if_pos htotal]
    obtain ⟨hlt, hread⟩ | ⟨m, hm, hmle, hread⟩ :=
      Source.read_cases w s.sock (len - s.buf.length) (by omega)
    · refine .inr ⟨⟨s.buf, ⟨s.sock.input, s.sock.calls + 1⟩⟩, ?_, ⟨hinput, hle⟩, ?_⟩
      · simp [sockRead, hread]
      · dsimp only
        omega
    · cases hin : s.sock.input with
      | nil =>
        have hshort : ¬ len ≤ sock.input.length := by
          rw [hin, List.length_nil] at hlen
          omega
        have hne := he.resolve_right hshort
        refine .inl ⟨(-1, ⟨s.buf, ⟨[], s.sock.calls + 1⟩⟩), ?_, ?_⟩
        · simp [sockRead, hread, hin, hne]
        · rw [if_neg hshort]
      | cons b rest =>
        have hpos : 0 < (s.sock.input.take m).length := by
          rw [hin, List.length_take, List.length_cons]
          omega
        refine .inr ⟨⟨s.buf ++ s.sock.input.take m, ⟨s.sock.input.drop m, s.sock.calls + 1⟩⟩, ?_,
          ⟨?_, ?_⟩, ?_⟩
        · have hret : ¬ ((s.sock.input.take m).length : Int) ≤ 0 := by omega
          simp only [sockRead, hread, if_neg hret]
        · rw [List.append_assoc, List.take_append_drop, hinput]
        · rw [List.length_append, List.length_take]
          omega
        · dsimp only
          rw [List.length_append]
          omega
  · rw [if_neg htotal]
    have hfull : len ≤ sock.input.length := by omega
    have hbuf : s.buf.length = len := by omega
    refine .inl ⟨_, rfl, ?_⟩
    rw [if_pos hfull, ← hinput]
    refine ⟨congrArg Nat.cast hbuf, ?_, ?_⟩
    · rw [← hbuf, List.take_left']
      rfl
    · rw [← hbuf, List.drop_left']
      rfl

/-- `read_all` returns all it was asked for if there is so much. -/
theorem readAll_gives (w : Schedule) (e : Int) (len : Nat) (sock : Source UInt8)
    (h : len ≤ sock.input.length) :
    ∃ sock', Gives (fun n => readAll (sockRead w e) n len sock)
      ((len : Int), ⟨sock.input.take len, sock'⟩) ∧ sock'.input = sock.input.drop len := by
  obtain ⟨⟨_, ⟨_, sock'⟩⟩, hends, hr⟩ := readAll_ends w (e := e) len sock (.inr h)
  rw [if_pos h] at hr
  obtain ⟨rfl, rfl, hinput⟩ := hr
  exact ⟨sock', gives_of_ends _ hends, hinput⟩

theorem readAll_short (w : Schedule) {e : Int} (he : e ≠ eintr) (len : Nat) (sock : Source UInt8)
    (h : sock.input.length < len) :
    ∃ s, Gives (fun n => readAll (sockRead w e) n len sock) (-1, s) := by
  obtain ⟨⟨_, s⟩, hends, hr⟩ := readAll_ends w len sock (.inl he)
  rw [if_neg (by omega)] at hr
  obtain rfl := hr
  exact ⟨s, gives_of_ends _ hends⟩

theorem writeAll_gives (w : Schedule) (buf : List UInt8) (sock : Sink UInt8) :
    ∃ sock', Gives (fun n => writeAll (sockWrite w) n buf sock) ((buf.length : Int), sock') ∧
      sock'.output = sock.output ++ buf := by
  suffices h : ∃ r, Ends (writeRound (sockWrite w) buf) ⟨0, sock⟩ r ∧
      r.1 = buf.length ∧ r.2.output = sock.output ++ buf by
    obtain ⟨⟨_, sock'⟩, hends, rfl, houtput⟩ := h
    exact ⟨sock', gives_of_ends _ hends, houtput⟩
  refine ends_of_measure _
    (I := fun s => s.total ≤ buf.length ∧ s.sock.output = sock.output ++ buf.take s.total)
    (fun s => (w.bound - s.sock.calls) + (buf.length - s.total)) (fun s hs => ?_)
    ⟨Nat.zero_le _, by simp⟩
  obtain ⟨hle, houtput⟩ := hs
  rw [writeRound]
  by_cases htotal : s.total < buf.length
  · rw [if_pos htotal]
    have hrest : (buf.drop s.total).length = buf.length - s.total := List.length_drop
    obtain ⟨hlt, hwrite⟩ | ⟨m, hm, hmle, hwrite⟩ :=
      Sink.write_cases w s.sock (buf.drop s.total) (by omega)
    · refine .inr ⟨⟨s.total, ⟨s.sock.output, s.sock.calls + 1⟩⟩, ?_, ⟨hle, houtput⟩, ?_⟩
      · simp [sockWrite, hwrite]
      · dsimp only
        omega
    · refine .inr ⟨⟨s.total + m, ⟨s.sock.output ++ (buf.drop s.total).take m, s.sock.calls + 1⟩⟩,
        ?_, ⟨?_, ?_⟩, ?_⟩
      · have hret : ¬ (m : Int) ≤ 0 := by omega
        simp only [sockWrite, hwrite, if_neg hret]
      · dsimp only
        omega
      · dsimp only
        rw [houtput, List.append_assoc, List.take_add]
      · dsimp only
        omega
  · rw [if_neg htotal]
    have hfull : s.total = buf.length := by omega
    refine .inl ⟨_, rfl, congrArg Nat.cast hfull, ?_⟩
    rw [houtput, hfull, List.take_length]

theorem length_htons (len : Nat) : (htons len).length = 2 := rfl

theorem ntohs_htons {len : Nat} (h : len ≤ 65535) : ntohs (htons len) = len := by
  have ha : (UInt8.ofNat (len / 256)).toNat = len / 256 := by
    rw [UInt8.toNat_ofNat']
    omega
  have hb : (UInt8.ofNat (len % 256)).toNat = len % 256 := by
    rw [UInt8.toNat_ofNat']
    omega
  rw [htons, ntohs, ha, hb]
  omega

section Frames

variable {M : Type} (codec : Codec M)

def frame (msg : M) : List UInt8 := htons (codec.pack msg).length ++ codec.pack msg

def Fits (msg : M) : Prop := 1 ≤ (codec.pack msg).length ∧ (codec.pack msg).length ≤ 65535

/-- The first messages whose frames lie within `n` bytes. -/
def complete : Nat → List M → List M
  | _, [] => []
  | n, msg :: msgs =>
    if (frame codec msg).length ≤ n then msg :: complete (n - (frame codec msg).length) msgs else []

variable {codec}

theorem writeFrame_gives (w : Schedule) (msg : M) (sock : Sink UInt8) :
    ∃ s s', Gives (fun n => writeAll (sockWrite w) n (htons (codec.pack msg).length) sock)
        (2, s) ∧
      Gives (fun n => writeAll (sockWrite w) n (codec.pack msg) s)
        ((codec.pack msg).length, s') ∧
      s'.output = sock.output ++ frame codec msg := by
  obtain ⟨s, hlength, houtput⟩ := writeAll_gives w (htons (codec.pack msg).length) sock
  obtain ⟨s', hbody, houtput'⟩ := writeAll_gives w (codec.pack msg) s
  refine ⟨s, s', hlength, hbody, ?_⟩
  rw [houtput', houtput, List.append_assoc, frame]

theorem networkSend_gives (w : Schedule) {msg : M} (h : Fits codec msg) (sock : Sink UInt8) :
    ∃ sock', Gives (fun n => networkSend codec (sockWrite w) n msg sock) (0, sock') ∧
      sock'.output = sock.output ++ frame codec msg := by
  obtain ⟨s, s', hlength, hbody, houtput⟩ := writeFrame_gives w msg sock
  obtain ⟨hpos, hmax⟩ := h
  have hlen : ¬ ((codec.pack msg).length = 0 ∨ (codec.pack msg).length > 0xFFFF) := by omega
  refine ⟨s', ?_, houtput⟩
  simp only [networkSend, if_neg hlen]
  refine hlength.bind ?_
  simp only [ne_eq, not_true, if_false]
  refine hbody.bind ?_
  simp only [not_true, if_false]
  exact gives_some _

/-- The client writes a message like the server. -/
theorem networkSendReceive_eq {σ : Type} (write : σ → List UInt8 → SysResult Nat × σ) (fuel : Nat)
    (msg : M) (sock : σ) : networkSendReceive codec write fuel msg sock =
      (networkSend codec write fuel msg sock).map fun r => (decide (r.1 = 0), r.2) := by
  unfold networkSendReceive networkSend
  by_cases hzero : (codec.pack msg).length = 0
  · rw [if_pos hzero, if_pos (.inl hzero)]
    rfl
  · by_cases hlarge : (codec.pack msg).length > 0xFFFF
    · rw [if_neg hzero, if_pos hlarge, if_pos (.inr hlarge)]
      rfl
    · rw [if_neg hzero, if_neg hlarge, if_neg (by omega)]
      cases writeAll write fuel (htons (codec.pack msg).length) sock with
      | none => rfl
      | some length =>
        obtain ⟨n, sock'⟩ := length
        by_cases hn : n = 2
        · subst hn
          cases hbody : writeAll write fuel (codec.pack msg) sock' with
          | none => simp [hbody]
          | some body =>
            obtain ⟨k, sock''⟩ := body
            by_cases hk : k = (codec.pack msg).length <;> simp [hbody, hk]
        · simp [hn]

theorem send_eq {σ : Type} (write : σ → List UInt8 → SysResult Nat × σ) (fuel : Nat)
    (msg : M) (sock : σ) (sender : Sender) : sender.send codec write fuel msg sock =
      (networkSend codec write fuel msg sock).map fun r => (decide (r.1 = 0), r.2) := by
  cases sender with
  | server => rfl
  | client => exact networkSendReceive_eq write fuel msg sock

theorem send_gives (w : Schedule) (sender : Sender) {msg : M} (h : Fits codec msg)
    (sock : Sink UInt8) :
    ∃ sock', Gives (fun n => sender.send codec (sockWrite w) n msg sock) (true, sock') ∧
      sock'.output = sock.output ++ frame codec msg := by
  obtain ⟨s, ⟨n, hn⟩, houtput⟩ := networkSend_gives w h sock
  refine ⟨s, ⟨n, fun m hm => ?_⟩, houtput⟩
  simp only [send_eq, hn m hm]
  rfl

theorem sendMany_gives (w : Schedule) {msgs : List (Sender × M)}
    (h : ∀ p ∈ msgs, Fits codec p.2) (sock : Sink UInt8) :
    ∃ sock', Gives (fun n => sendMany codec (sockWrite w) n msgs sock) (true, sock') ∧
      sock'.output = sock.output ++ msgs.flatMap fun p => frame codec p.2 := by
  induction msgs generalizing sock with
  | nil => exact ⟨sock, gives_some _, by simp⟩
  | cons p msgs ih =>
    obtain ⟨s, hsend, houtput⟩ := send_gives w p.1 (h p List.mem_cons_self) sock
    obtain ⟨s', hrest, houtput'⟩ := ih (fun q hq => h q (List.mem_cons_of_mem p hq)) s
    refine ⟨s', ?_, ?_⟩
    · simp only [sendMany]
      refine hsend.bind ?_
      simp only [Bool.not_true, Bool.false_eq_true, if_false]
      exact hrest
    · rw [houtput', houtput, List.flatMap_cons, List.append_assoc]

theorem length_frame (msg : M) : (frame codec msg).length = (codec.pack msg).length + 2 := by
  rw [frame, List.length_append, length_htons, Nat.add_comm]

theorem networkReceive_of_length {σ : Type} {read : σ → Nat → SysResult (List UInt8) × σ} {msg : M}
    (h : Fits codec msg) {sock s : σ} {k : Int} {t : Reading σ}
    (hlength : Gives (fun n => readAll read n 2 sock) (2, ⟨htons (codec.pack msg).length, s⟩))
    (hbody : Gives (fun n => readAll read n (codec.pack msg).length s) (k, t)) :
    Gives (fun n => networkReceive codec read n sock)
      (if k = (codec.pack msg).length then codec.unpack t.buf else none, t.sock) := by
  obtain ⟨hpos, hmax⟩ := h
  have hzero : ¬ (codec.pack msg).length = 0 := by omega
  simp only [networkReceive]
  refine hlength.bind ?_
  simp only [ne_eq, not_true, if_false, ntohs_htons hmax, if_neg hzero]
  refine hbody.bind ?_
  by_cases hk : k = (codec.pack msg).length
  · simp only [hk, not_true, if_false, if_true]
    exact gives_some _
  · simp only [hk, not_false_eq_true, if_true, if_false]
    exact gives_some _

theorem networkReceive_gives (w : Schedule) (e : Int) {msg : M} (h : Fits codec msg)
    {sock : Source UInt8} {rest : List UInt8} (hinput : sock.input = frame codec msg ++ rest) :
    ∃ sock', Gives (fun n => networkReceive codec (sockRead w e) n sock) (some msg, sock') ∧
      sock'.input = rest := by
  have hsplit : sock.input = htons (codec.pack msg).length ++ (codec.pack msg ++ rest) := by
    rw [hinput, frame, List.append_assoc]
  have hlen := congrArg List.length hsplit
  rw [List.length_append, List.length_append, length_htons] at hlen
  obtain ⟨s, hlength, hs⟩ := readAll_gives w e 2 sock (by omega)
  rw [hsplit, List.drop_left' (length_htons _)] at hs
  rw [hsplit, List.take_left' (length_htons _)] at hlength
  have hslen := congrArg List.length hs
  rw [List.length_append] at hslen
  obtain ⟨s', hbody, hs'⟩ :=
    readAll_gives w e (codec.pack msg).length s (by omega)
  rw [hs, List.take_left' rfl] at hbody
  rw [hs, List.drop_left' rfl] at hs'
  have hreceive := networkReceive_of_length h hlength hbody
  rw [if_pos rfl, codec.unpack_pack] at hreceive
  exact ⟨s', hreceive, hs'⟩

theorem networkReceive_noLength (codec : Codec M) (w : Schedule) {e : Int} (he : e ≠ eintr)
    {sock : Source UInt8} (hshort : sock.input.length < 2) :
    ∃ sock', Gives (fun n => networkReceive codec (sockRead w e) n sock) (none, sock') := by
  obtain ⟨s, hlength⟩ := readAll_short w he 2 sock hshort
  have hne : ¬ (-1 : Int) = 2 := by decide
  refine ⟨s.sock, ?_⟩
  simp only [networkReceive]
  refine hlength.bind ?_
  simp only [ne_eq, if_pos hne]
  exact gives_some _

theorem networkReceive_short (w : Schedule) {e : Int} (he : e ≠ eintr) {msg : M}
    (h : Fits codec msg) {sock : Source UInt8} (hinput : sock.input <+: frame codec msg)
    (hlt : sock.input.length < (frame codec msg).length) :
    ∃ sock', Gives (fun n => networkReceive codec (sockRead w e) n sock) (none, sock') := by
  rw [length_frame] at hlt
  by_cases htwo : sock.input.length < 2
  · exact networkReceive_noLength codec w he htwo
  · obtain ⟨t, ht⟩ := hinput
    have htake : sock.input.take 2 = htons (codec.pack msg).length := by
      have h2 := congrArg (List.take 2) ht
      rw [List.take_append_of_le_length (by omega), frame,
        List.take_left' (length_htons _)] at h2
      exact h2
    obtain ⟨s, hlength, hs⟩ := readAll_gives w e 2 sock (by omega)
    rw [htake] at hlength
    have hslen := congrArg List.length hs
    rw [List.length_drop] at hslen
    obtain ⟨s', hbody⟩ :=
      readAll_short w he (codec.pack msg).length s (by omega)
    have hreceive := networkReceive_of_length h hlength hbody
    rw [if_neg (by omega)] at hreceive
    exact ⟨s'.sock, hreceive⟩

theorem receiveMany_gives (w : Schedule) (e : Int) {msgs : List M} (h : ∀ msg ∈ msgs, Fits codec msg)
    (sock : Source UInt8) {rest : List UInt8}
    (hinput : sock.input = msgs.flatMap (frame codec) ++ rest) :
    ∃ sock', Gives (fun n => receiveMany codec (sockRead w e) n msgs.length sock)
      (msgs.map some, sock') ∧ sock'.input = rest := by
  induction msgs generalizing sock with
  | nil => exact ⟨sock, gives_some _, hinput⟩
  | cons msg msgs ih =>
    rw [List.flatMap_cons, List.append_assoc] at hinput
    obtain ⟨s, hfirst, hs⟩ := networkReceive_gives w e (h msg List.mem_cons_self) hinput
    obtain ⟨s', hrest, hs'⟩ := ih (fun m hm => h m (List.mem_cons_of_mem msg hm)) s hs
    exact ⟨s', hfirst.bind (hrest.bind (gives_some _)), hs'⟩

/-- Of data that ends anywhere, the complete messages are received and then
NULL. -/
theorem receiveMany_prefix (w : Schedule) {e : Int} (he : e ≠ eintr) {msgs : List M}
    (h : ∀ msg ∈ msgs, Fits codec msg) (sock : Source UInt8)
    (hinput : sock.input <+: msgs.flatMap (frame codec)) :
    ∃ sock', Gives (fun n => receiveMany codec (sockRead w e) n
        ((complete codec sock.input.length msgs).length + 1) sock)
      ((complete codec sock.input.length msgs).map some ++ [none], sock') := by
  induction msgs generalizing sock with
  | nil =>
    have hnil : sock.input = [] := List.prefix_nil.mp hinput
    obtain ⟨s, hlast⟩ := networkReceive_noLength codec w he (by rw [hnil]; exact Nat.two_pos)
    exact ⟨s, hlast.bind (gives_some _)⟩
  | cons msg msgs ih =>
    rw [List.flatMap_cons] at hinput
    have hmsg := h msg List.mem_cons_self
    by_cases hle : (frame codec msg).length ≤ sock.input.length
    · obtain ⟨rest, hrest⟩ :=
        List.prefix_of_prefix_length_le (List.prefix_append _ _) hinput hle
      rw [← hrest] at hinput
      obtain ⟨s, hfirst, hs⟩ := networkReceive_gives w e hmsg hrest.symm
      have hslen : sock.input.length - (frame codec msg).length = s.input.length := by
        rw [← hrest, List.length_append, hs]
        omega
      obtain ⟨s', hmany⟩ := ih (fun m hm => h m (List.mem_cons_of_mem msg hm)) s
        (hs ▸ (List.prefix_append_right_inj _).mp hinput)
      rw [complete, if_pos hle, hslen]
      exact ⟨s', hfirst.bind (hmany.bind (gives_some _))⟩
    · have hcut : sock.input <+: frame codec msg :=
        List.prefix_of_prefix_length_le hinput (List.prefix_append _ _) (by omega)
      obtain ⟨s, hlast⟩ := networkReceive_short w he hmsg hcut (by omega)
      rw [complete, if_neg hle]
      exact ⟨s, hlast.bind (gives_some _)⟩

def Written (codec : Codec M) (w : Schedule) (msgs : List (Sender × M)) (bytes : List UInt8) :
    Prop := ∃ sock, Gives (fun n => sendMany codec (sockWrite w) n msgs ⟨[], 0⟩) (true, sock) ∧
  sock.output = bytes

/-- Successive calls of `network_receive` on these bytes return these results. -/
def Received (codec : Codec M) (w : Schedule) (errnoAtEnd : Int) (bytes : List UInt8)
    (results : List (Option M)) : Prop :=
  ∃ sock, Gives (fun n => receiveMany codec (sockRead w errnoAtEnd) n results.length ⟨bytes, 0⟩)
    (results, sock)

/-- The messages that are written are received, whatever the partial transfers
on both sides are: all of them in their order, and from a part of the bytes the
complete ones and then NULL. -/
theorem framing (codec : Codec M) (msgs : List (Sender × M))
    (h : ∀ p ∈ msgs, 1 ≤ (codec.pack p.2).length ∧ (codec.pack p.2).length ≤ 65535)
    (w : Schedule) :
    ∃ bytes, Written codec w msgs bytes ∧
      (∀ r e more, Received codec r e (bytes ++ more) (msgs.map fun p => some p.2)) ∧
      ∀ r e part, e ≠ eintr → part <+: bytes →
        Received codec r e part
          ((complete codec part.length (msgs.map Prod.snd)).map some ++ [none]) := by
  obtain ⟨sock, hsend, houtput⟩ := sendMany_gives w h ⟨[], 0⟩
  have hframes : sock.output = (msgs.map Prod.snd).flatMap (frame codec) := by
    rw [houtput, List.nil_append, List.flatMap_map]
  have hfits : ∀ msg ∈ msgs.map Prod.snd, Fits codec msg := fun msg hmsg => by
    obtain ⟨p, hp, rfl⟩ := List.mem_map.mp hmsg
    exact h p hp
  refine ⟨sock.output, ⟨sock, hsend, rfl⟩, fun r e more => ?_, fun r e part he hpart => ?_⟩
  · have hinput : sock.output ++ more =
        (msgs.map Prod.snd).flatMap (frame codec) ++ more := by rw [hframes]
    obtain ⟨sock', hreceive, -⟩ := receiveMany_gives r e hfits ⟨sock.output ++ more, 0⟩ hinput
    rw [List.length_map, List.map_map] at hreceive
    refine ⟨sock', ?_⟩
    rw [List.length_map]
    exact hreceive
  · obtain ⟨sock', hreceive⟩ :=
      receiveMany_prefix r he hfits ⟨part, 0⟩ (hframes ▸ hpart)
    refine ⟨sock', ?_⟩
    rw [List.length_append, List.length_map]
    exact hreceive

end Frames

/-- Messages with nothing but an operation code below 128, in the protobuf
format: the key of the field and the code. -/
def opcodeOnly : Codec { b : UInt8 // 0 < b ∧ b < 128 } where
  pack b := [8, b]
  unpack
    | [8, b] => if h : 0 < b ∧ b < 128 then some ⟨b, h⟩ else none
    | _ => none
  unpack_pack b := dif_pos b.2

def byteByByte : Schedule where
  events i := if i = 0 then .interrupted else .chunk 0
  bound := 1
  finite i hi := by
    rw [if_neg (by omega)]
    exact Event.noConfusion

theorem framing_ready : ∃ bytes,
    Written opcodeOnly byteByByte [(.server, ⟨101, by decide⟩), (.client, ⟨40, by decide⟩)] bytes ∧
    (∀ r e more, Received opcodeOnly r e (bytes ++ more)
      [some ⟨101, by decide⟩, some ⟨40, by decide⟩]) ∧
    ∀ r e part, e ≠ eintr → part <+: bytes → Received opcodeOnly r e part
      ((complete opcodeOnly part.length [⟨101, by decide⟩, ⟨40, by decide⟩]).map some ++
        [none]) :=
  framing opcodeOnly [(.server, ⟨101, by decide⟩), (.client, ⟨40, by decide⟩)]
    (fun p _ => by
      have hlen : (opcodeOnly.pack p.2).length = 2 := rfl
      omega) byteByByte

end ListServer.Framing
