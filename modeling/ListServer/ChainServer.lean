import ListServer.Lib.CTypes
import ListServer.Lib.Scan
import Mathlib.Algebra.Order.Ring.Int

namespace ListServer.ChainServer

open Lib.CTypes Lib.Scan

def nodeLiteral : List UInt8 := [110, 111, 100, 101, 45]

def chainPath : CString := ⟨[47, 99, 104, 97, 105, 110, 47], by simp⟩

def nodePath (name : CString) : CString := chainPath.append name

def nodeNumber (name : CString) : Option Int := sscanfD nodeLiteral name

/-- The variable `lower` of `update`, `maximum` of `init_list`, after its
`sscanf`, which leaves what was there before if `node_path` does not match. -/
def ownNumber (before : Int) (path : CString) : Int :=
  (sscanfD (chainPath.bytes ++ nodeLiteral) path).getD before

/-- The child that `update` connects to, for a server with number `lower`. -/
def updateNext (lower : Int) (children : List CString) : Option CString :=
  if 1 < children.length then
    pick nodeNumber (fun num next => decide (lower < num) && decide (num < next)) intMax children
  else none

/-- The child whose list `init_list` fetches, for a server with number `maximum`. -/
def initListPrev (maximum : Int) (children : List CString) : Option CString :=
  if children.length ≤ 1 then none
  else
    pick nodeNumber (fun num prev => decide (num < maximum) && decide (num > prev)) intMin children

/-- `node_head` of the client's `update`; `minIndex` is 0 until a child is taken. -/
def clientHead (children : List CString) : Option CString :=
  children[(scan nodeNumber (fun num min => decide (num < min)) children 0 (intMax, none)).2.getD 0]?

def clientTail (children : List CString) : Option CString :=
  children[(scan nodeNumber (fun num max => decide (num > max)) children 0 (intMin, none)).2.getD 0]?

def zDataLen : Nat := 1024 * 1024

/-- The first line of what `zoo_get` has put into the buffer. -/
def address (data : CString) : CString :=
  ⟨(data.bytes.take (zDataLen - 1)).takeWhile (fun b => decide (b ≠ 13 ∧ b ≠ 10)), fun b hb =>
    data.nonzero b (List.mem_of_mem_take ((List.takeWhile_prefix _).subset hb))⟩

/-- What `update` leaves in `rl_next_server`, with the results of the calls of
`zoo_get` and `rlist_connect` that it may make. -/
def update (lower : Int) (children : List CString) (zooGet : CString → Option CString)
    (rlistConnect : CString → Bool) (next : Option CString) : Option CString :=
  if children.length = 0 then next
  else
    match updateNext lower children with
    | none => none
    | some node =>
      match zooGet (nodePath node) with
      | none => none
      | some data => if rlistConnect (address data) then some (address data) else none

/-- The globals `zh` (whether it is set) and `rl_next_server` (the address it is
connected to). -/
structure Globals where
  zh : Bool
  next : Option CString
deriving DecidableEq, Repr

def zooCleanServer (g : Globals) : Globals := if g.zh then ⟨false, none⟩ else g

theorem ownNumber_nodePath (before : Int) (name : CString) :
    ownNumber before (nodePath name) = (nodeNumber name).getD before := by
  rw [ownNumber, nodePath, sscanfD_append, nodeNumber]

end ListServer.ChainServer
