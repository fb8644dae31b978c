import ListServer.ChainServer
import ListServer.ClientThread
import ListServer.Lib.Transition

namespace ListServer.LastServer

open Lib.CTypes Lib.Scan Lib.Transition Message ChainServer ClientThread

/-- The answer of `zoo_get_children`, which lists at least one child. -/
structure Children where
  names : List CString
  nonempty : names ≠ []

/-- A call of `update`, with the results of the calls it may make, and the
call of `zoo_clean_server`. -/
inductive Op
  | update (children : Children) (zooGet : CString → Option CString)
      (rlistConnect : CString → Bool)
  | clean

/-- The globals of a server and the children list it has processed last. -/
structure State where
  globals : Globals
  last : Option Children

def State.start : State := ⟨⟨true, none⟩, none⟩

def step (lower : Int) (s : State) : Op → Option State
  | .update children zooGet rlistConnect =>
    let next := update lower children.names zooGet rlistConnect s.globals.next
    some ⟨{ s.globals with next := next }, some children⟩
  | .clean => some { s with globals := zooCleanServer s.globals }

def HasNext (lower : Int) (children : Children) : Prop :=
  ∃ name ∈ children.names, ∃ n, nodeNumber name = some n ∧ lower < n

/-- The server executes writes as the last one only if it is the last one. -/
def LastOnlyIfLast (lower : Int) (s : State) : Prop :=
  ∀ resp, zooForwardToSuccessor s.globals.next.isSome resp = -2 →
    ∀ children, s.last = some children → ¬ HasNext lower children

/-- There are two children at least; of those with a number above the server's
and below `INT_MAX`, the first one with the least number gives its data and
can be connected to. -/
def Reachable (lower : Int) (children : Children) (zooGet : CString → Option CString)
    (rlistConnect : CString → Bool) : Prop :=
  1 < children.names.length ∧ ∃ name n data,
    Best nodeNumber (fun n => lower < n ∧ n < intMax) (· < ·) children.names name n ∧
    zooGet (nodePath name) = some data ∧ rlistConnect (address data) = true

/-- What is asked of the calls: a list with a greater number leads to a
connection, and the server is not cleaned up while it has a successor. -/
def Follows (lower : Int) (s : State) : Op → Prop
  | .update children zooGet rlistConnect =>
    HasNext lower children → Reachable lower children zooGet rlistConnect
  | .clean => s.globals.zh = true → ∀ children, s.last = some children → ¬ HasNext lower children

theorem zooForwardToSuccessor_eq (next : Bool) (resp : Option MessageT) :
    zooForwardToSuccessor next resp = -2 ↔ next = false := by
  cases next <;> cases resp <;> simp [zooForwardToSuccessor]

theorem lastOnlyIfLast_iff {lower : Int} {s : State} : LastOnlyIfLast lower s ↔
    (s.globals.next = none → ∀ children, s.last = some children → ¬ HasNext lower children) := by
  simp [LastOnlyIfLast, zooForwardToSuccessor_eq]

theorem updateNext_eq_some {lower : Int} {children : List CString} {name : CString} :
    updateNext lower children = some name ↔ 1 < children.length ∧
      ∃ n, Best nodeNumber (fun n => lower < n ∧ n < intMax) (· < ·) children name n := by
  rw [updateNext, Option.ite_none_right_eq_some]
  exact and_congr_right fun _ => pick_eq_some nodeNumber (lower < ·) (· < ·) intMax children

/-- `update` ends without a successor exactly if it reaches none. -/
theorem update_eq_none {lower : Int} {children : Children} {zooGet : CString → Option CString}
    {rlistConnect : CString → Bool} {next : Option CString} :
    update lower children.names zooGet rlistConnect next = none ↔
      ¬ Reachable lower children zooGet rlistConnect := by
  have hlen : children.names.length ≠ 0 := fun h =>
    children.nonempty (List.length_eq_zero_iff.mp h)
  rw [update, if_neg hlen]
  cases hn : updateNext lower children.names with
  | none =>
    refine ⟨fun _ ⟨hlen, name, n, _, hb, _⟩ => ?_, fun _ => rfl⟩
    rw [updateNext_eq_some.mpr ⟨hlen, n, hb⟩] at hn
    cases hn
  | some node =>
    dsimp only
    obtain ⟨hlen, n, hb⟩ := updateNext_eq_some.mp hn
    have huniq : ∀ name k, Best nodeNumber (fun n => lower < n ∧ n < intMax) (· < ·)
        children.names name k → name = node := fun name k hk => hk.unique hb
    cases hd : zooGet (nodePath node) with
    | none =>
      refine ⟨fun _ ⟨_, name, k, data, hk, hdata, _⟩ => ?_, fun _ => rfl⟩
      rw [huniq name k hk, hd] at hdata
      cases hdata
    | some data =>
      by_cases hc : rlistConnect (address data) = true
      · simp only [hc, if_true, reduceCtorEq, false_iff, not_not]
        exact ⟨hlen, node, n, data, hb, hd, hc⟩
      · simp only [hc, Bool.false_eq_true, if_false, true_iff]
        rintro ⟨-, name, k, d, hk, hdata, hcon⟩
        rw [huniq name k hk, hd] at hdata
        obtain rfl := Option.some.inj hdata
        exact hc hcon

theorem step_lastOnlyIfLast {lower : Int} {s t : State} {op : Op} (h : LastOnlyIfLast lower s)
    (hs : step lower s op = some t) : LastOnlyIfLast lower t ↔ Follows lower s op := by
  cases op with
  | update children zooGet rlistConnect =>
    obtain rfl := Option.some.inj hs
    simp only [lastOnlyIfLast_iff, update_eq_none, Follows, Option.some.injEq, forall_eq']
    exact not_imp_not
  | clean =>
    obtain rfl := Option.some.inj hs
    simp only [lastOnlyIfLast_iff, zooCleanServer, Follows] at h ⊢
    cases hz : s.globals.zh with
    | true => simp
    | false => simpa using h

/-- In a run, a server acts as the last one only when it is exactly if every
update with a greater number in its list reaches the successor and the server
is not cleaned up while it has one. -/
theorem last_only_if_last_iff (lower : Int) (ops : List Op) :
    (∀ ks ms t, ops = ks ++ ms → run (step lower) .start ks = some t → LastOnlyIfLast lower t) ↔
      Meets (step lower) (Follows lower) .start ops := by
  refine reached_iff_meets (step lower) (fun s op => ?_)
    (fun s op t h hs => step_lastOnlyIfLast h hs) ?_ ops
  · cases op <;> exact ⟨_, rfl⟩
  · intro resp _ children hc
    cases hc

def twoNodes : Children :=
  ⟨[ofBytes (nodeLiteral ++ [48]), ofBytes (nodeLiteral ++ [49])], by decide⟩

/-- A successor that answers BUSY or refuses the connection is taken for no
successor. -/
theorem last_with_successor :
    ¬ ∀ ks ms t, [Op.update twoNodes some fun _ => false] = ks ++ ms →
      run (step 0) .start ks = some t → LastOnlyIfLast 0 t := by
  intro h
  have hlast := h [.update twoNodes some fun _ => false] [] _ rfl rfl
  refine hlast none (by decide) twoNodes rfl ?_
  exact ⟨ofBytes (nodeLiteral ++ [49]), by decide, 1, by decide, by decide⟩

end ListServer.LastServer
