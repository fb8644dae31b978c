import ListServer.ChainOrder
import ListServer.Lib.Transition
import ListServer.Lib.Watch

namespace ListServer.ChainHealing

open Lib.CTypes Lib.Transition Lib.Watch ChainServer ListServer.Topology ChainOrder

/-- What ZooKeeper guarantees about the numbers of the children. -/
structure Listed (children : List CString) : Prop where
  distinct : ((parsed children).map number).Nodup
  bounds : ∀ name ∈ parsed children, 0 ≤ number name ∧ number name < 2147483647

instance (children : List CString) : Decidable (Listed children) :=
  decidable_of_iff (((parsed children).map number).Nodup ∧
    ∀ name ∈ parsed children, 0 ≤ number name ∧ number name < 2147483647)
    ⟨fun h => ⟨h.1, h.2⟩, fun h => ⟨h.distinct, h.bounds⟩⟩

variable {children children' : List CString} {name : CString}

theorem Listed.numbered (h : Listed children) (hname : name ∈ parsed children) :
    Numbered children := ⟨h.distinct, h.bounds, List.ne_nil_of_mem hname⟩

theorem Listed.perm (h : Listed children) (hp : children'.Perm children) : Listed children' := by
  have hparsed : (parsed children').Perm (parsed children) := hp.filter _
  exact ⟨(hparsed.map number).nodup_iff.mpr h.distinct,
    fun name hname => h.bounds name (hparsed.mem_iff.mp hname)⟩

theorem succ_perm (h : Listed children) (hp : children'.Perm children)
    (hname : name ∈ parsed children) : succ 0 children' name = succ 0 children name := by
  have hparsed : (parsed children').Perm (parsed children) := hp.filter _
  have hname' := hparsed.mem_iff.mpr hname
  obtain ⟨line, hline⟩ := exists_ordered h.distinct
  obtain ⟨front, back, rfl⟩ := List.append_of_mem (hline.mem.mp hname)
  rw [succ_ordered (h.numbered hname) hline,
    succ_ordered ((h.perm hp).numbered hname') ⟨hline.perm.trans hparsed.symm, hline.sorted⟩]

section Source

variable (data : CString → CString)

/-- The address in the node of a child, where `data` gives what a path holds. -/
def addr (name : CString) : CString := address (data (nodePath name))

/-- `update` of the server with the given name, with the children that it has been
called with, whether `zoo_get` finds the node, and whether `rlist_connect` succeeds. -/
def updateServer (name : CString) (children : List CString) (a : Bool × Bool)
    (next : Option CString) : Option CString :=
  update (ownNumber 0 (nodePath name)) children (fun path => if a.1 then some (data path) else none)
    (fun _ => a.2) next

def Right (name : CString) (children : List CString) (next : Option CString) : Prop :=
  Listed children → name ∈ parsed children → next = (succ 0 children name).map (addr data)

theorem right_update {a : Bool × Bool} {next : Option CString} (hp : children'.Perm children)
    (ha : ∀ node, updateNext (ownNumber 0 (nodePath name)) children' = some node →
      node ∈ children → a = (true, true)) :
    Right data name children (updateServer data name children' a next) := by
  intro hl hname
  have hpos : children'.length ≠ 0 := by
    rw [hp.length_eq]
    exact fun hlen => absurd (List.mem_filter.mp hname).1
      (by rw [List.length_eq_zero_iff.mp hlen]; exact List.not_mem_nil)
  have hnext : updateNext (ownNumber 0 (nodePath name)) children' = succ 0 children name :=
    succ_perm hl hp hname
  rw [hnext] at ha
  rw [updateServer, update, if_neg hpos, hnext]
  cases hsucc : succ 0 children name with
  | none => rfl
  | some node =>
    have hsuccessor : Lib.Neighbour.Successor number (parsed children) (succ 0 children) :=
      successor_succ (hl.numbered hname)
    have hmem := (hsuccessor.found name hname node hsucc).mem
    obtain rfl := ha node hsucc (List.mem_filter.mp hmem).1
    rfl

/-- The children as the source of a server's connection. What exists is found, and
its server accepts the connection. -/
def source (name : CString) :
    Source (List CString) (List CString) (Bool × Bool) (Option CString) where
  Reads children read := read.Perm children
  Allowed children read a := ∀ node ∈ updateNext (ownNumber 0 (nodePath name)) read,
    node ∈ children → a = (true, true)
  apply := updateServer data name
  Good := Right data name
  good_apply _ _ _ _ hread ha := right_update data hread ha

instance (children read : List CString) : Decidable ((source data name).Reads children read) :=
  inferInstanceAs (Decidable (List.Perm _ _))

instance (children read : List CString) (a : Bool × Bool) :
    Decidable ((source data name).Allowed children read a) :=
  inferInstanceAs (Decidable (∀ node ∈ updateNext _ read, node ∈ children → a = (true, true)))

instance (children : List CString) (next : Option CString) :
    Decidable ((source data name).Good children next) :=
  inferInstanceAs (Decidable (Listed children → name ∈ parsed children → _))

end Source

/-- The children of `/chain`, and what every server has read of them and which
address it is connected to. -/
structure State where
  children : List CString
  server : CString → Reader (List CString) (Option CString)

def State.start : State := ⟨[], fun _ => .start none⟩

/-- A server creates its child, a child vanishes with its server, or a server that
is there goes on in `zoo_init_server` or in its child watcher. -/
inductive Label
  | create (name : CString)
  | vanish (name : CString)
  | act (name : CString) (a : Act (List CString) (Bool × Bool))

/-- ZooKeeper gives a new child a higher number than all that are there. -/
def Fresh (children : List CString) (name : CString) : Prop :=
  (nodeNumber name).isSome = true ∧ 0 ≤ number name ∧ number name < 2147483647 ∧
    ∀ x ∈ parsed children, number x < number name

instance (children : List CString) (name : CString) : Decidable (Fresh children name) :=
  inferInstanceAs (Decidable (_ ∧ _ ∧ _ ∧ _))

def step (data : CString → CString) (s : State) : Label → Option State
  | .create name =>
    if Fresh s.children name then
      some ⟨name :: s.children, Function.update (fun x => (s.server x).notify) name (.start none)⟩
    else none
  | .vanish name => some ⟨s.children.erase name, fun x => (s.server x).notify⟩
  | .act name a =>
    if name ∈ s.children then
      ((s.server name).step (source data name) s.children a).map fun r =>
        { s with server := Function.update s.server name r }
    else none

/-- The update of `zoo_init_server` is not overtaken by those of the watcher, or
it finds the right successor all the same. -/
def OnTime (data : CString → CString) (s : State) : Label → Prop
  | .act name a => (s.server name).OnTime (source data name) s.children a
  | _ => True

instance (data : CString → CString) (s : State) : DecidablePred (OnTime data s)
  | .act name a =>
    inferInstanceAs (Decidable ((s.server name).OnTime (source data name) s.children a))
  | .create _ | .vanish _ => isTrue trivial

/-- The servers form one line in the order of their numbers: each is connected to
the one behind it, and clients find the ends. -/
structure Healed (data : CString → CString) (s : State) (line : List CString) : Prop where
  ordered : Ordered s.children line
  linked : ∀ front x back, line = front ++ x :: back →
    (s.server x).cache = back.head?.map (addr data)
  head : line ≠ [] → clientHead s.children = line.head?
  tail : line ≠ [] → clientTail s.children = line.getLast?

structure Inv (data : CString → CString) (s : State) : Prop where
  listed : Listed s.children
  covered : ∀ name, Covered (source data name) s.children (s.server name)

variable {data : CString → CString} {s s' : State}

theorem inv_start (data : CString → CString) : Inv data .start :=
  ⟨⟨List.nodup_nil, fun _ hname => absurd hname List.not_mem_nil⟩,
    fun _ => covered_start _ _ none⟩

theorem listed_create (h : Listed children) (hf : Fresh children name) :
    Listed (name :: children) := by
  obtain ⟨hnumber, hmin, hmax, hless⟩ := hf
  have hparsed : parsed (name :: children) = name :: parsed children :=
    List.filter_cons_of_pos hnumber
  refine ⟨?_, fun x hx => ?_⟩
  · rw [hparsed, List.map_cons, List.nodup_cons]
    refine ⟨fun hmem => ?_, h.distinct⟩
    obtain ⟨x, hx, he⟩ := List.mem_map.mp hmem
    exact (hless x hx).ne he
  · rw [hparsed] at hx
    obtain rfl | hx := List.mem_cons.mp hx
    · exact ⟨hmin, hmax⟩
    · exact h.bounds x hx

theorem listed_vanish (h : Listed children) (name : CString) : Listed (children.erase name) := by
  have hsub : (parsed (children.erase name)).Sublist (parsed children) :=
    List.erase_sublist.filter _
  exact ⟨h.distinct.sublist (hsub.map _), fun x hx => h.bounds x (hsub.subset hx)⟩

theorem inv_step {l : Label} (h : Inv data s) (hon : OnTime data s l)
    (hs : step data s l = some s') : Inv data s' := by
  cases l with
  | create name =>
    obtain ⟨hf, hsome⟩ := Option.ite_none_right_eq_some.mp hs
    obtain rfl := Option.some.inj hsome
    refine ⟨listed_create h.listed hf, fun x => ?_⟩
    by_cases hx : x = name
    · subst hx
      dsimp only
      rw [Function.update_self]
      exact covered_start _ _ none
    · dsimp only
      rw [Function.update_of_ne hx]
      exact (h.covered x).notify _
  | vanish name =>
    obtain rfl := Option.some.inj hs
    exact ⟨listed_vanish h.listed name, fun x => (h.covered x).notify _⟩
  | act name a =>
    obtain ⟨-, hsome⟩ := Option.ite_none_right_eq_some.mp hs
    obtain ⟨r, hr, rfl⟩ := Option.map_eq_some_iff.mp hsome
    refine ⟨h.listed, fun x => ?_⟩
    by_cases hx : x = name
    · subst hx
      dsimp only
      rw [Function.update_self]
      exact (h.covered x).step hon hr
    · dsimp only
      rw [Function.update_of_ne hx]
      exact h.covered x

theorem healed_of_quiet (h : Inv data s) (hq : ∀ x ∈ parsed s.children, (s.server x).Quiet) :
    ∃ line, Healed data s line := by
  obtain ⟨line, hline⟩ := exists_ordered h.listed.distinct
  have hnumbered : ∀ x ∈ line, Numbered s.children := fun x hx =>
    h.listed.numbered (hline.mem.mpr hx)
  refine ⟨line, hline, fun front x back he => ?_, fun hne => ?_, fun hne => ?_⟩
  · subst he
    have hx : x ∈ parsed s.children := hline.mem.mpr (by simp)
    have hright : Right data x s.children (s.server x).cache := (h.covered x).good (hq x hx)
    rw [hright h.listed hx, succ_ordered (h.listed.numbered hx) hline]
  · obtain ⟨x, back, rfl⟩ := List.exists_cons_of_ne_nil hne
    exact clientHead_ordered (hnumbered x List.mem_cons_self) hline
  · obtain ⟨front, x, rfl⟩ := (List.eq_nil_or_concat' line).resolve_left hne
    rw [List.getLast?_concat]
    exact clientTail_ordered (hnumbered x (by simp)) hline

/-- The child watcher of a server begins after `zoo_init_server` is through. -/
def InTurn (s : State) : Label → Prop
  | .act name a => (s.server name).InTurn a
  | .create _ | .vanish _ => True

theorem alone_step {l : Label} (h : ∀ name, Alone (source data name) s.children (s.server name))
    (hturn : InTurn s l) (hs : step data s l = some s') (x : CString) :
    Alone (source data x) s'.children (s'.server x) := by
  cases l with
  | create name =>
    obtain ⟨-, hsome⟩ := Option.ite_none_right_eq_some.mp hs
    obtain rfl := Option.some.inj hsome
    dsimp only
    rw [Function.update_apply]
    split
    next => exact alone_start _ _ none
    next => exact (h x).notify _
  | vanish name =>
    obtain rfl := Option.some.inj hs
    exact (h x).notify _
  | act name a =>
    obtain ⟨-, hsome⟩ := Option.ite_none_right_eq_some.mp hs
    obtain ⟨r, hr, rfl⟩ := Option.map_eq_some_iff.mp hsome
    dsimp only
    rw [Function.update_apply]
    split
    next hx =>
      subst hx
      exact (h x).step hturn hr
    next => exact h x

/-- Start-up updates that are not overtaken are on time. -/
theorem onTime_of_inTurn {ls : List Label} (hturn : Meets (step data) InTurn .start ls)
    (hrun : run (step data) .start ls = some s) : Meets (step data) (OnTime data) .start ls := by
  refine meets_of_invariant (step data)
    (I := fun s => ∀ x, Alone (source data x) s.children (s.server x))
    (fun _ _ _ h hG hs => alone_step h hG hs) (fun s l t h hs => ?_)
    (fun _ => alone_start _ _ none) hturn hrun
  cases l with
  | create | vanish => trivial
  | act name a =>
    obtain ⟨-, hsome⟩ := Option.ite_none_right_eq_some.mp hs
    obtain ⟨r, hr, -⟩ := Option.map_eq_some_iff.mp hsome
    exact (h name).onTime hr

/-- Whatever servers start and crash in whatever order with the steps of the
others: once nobody has an event or an update to handle, the servers form one line. -/
theorem chain_heals (data : CString → CString) (ls : List Label) (s : State)
    (hon : Meets (step data) (OnTime data) .start ls) (hrun : run (step data) .start ls = some s)
    (hq : ∀ x ∈ parsed s.children, (s.server x).Quiet) : ∃ line, Healed data s line := by
  refine healed_of_quiet ?_ hq
  exact run_invariant (step data) (fun _ _ _ hI hG hs => inv_step hI hG hs) (inv_start data) hon
    hrun

def node (n : UInt8) : CString := ofBytes (nodeLiteral ++ [n])

def threeStarts : List Label :=
  let act (n : UInt8) (a : Act (List CString) (Bool × Bool)) := Label.act (node n) a
  [.create (node 49), act 49 (.list .main [node 49]), act 49 (.apply .main (true, true)),
    .create (node 50), act 50 (.list .main [node 50, node 49]), act 49 .event,
    act 49 (.list .watcher [node 49, node 50]), act 49 (.apply .watcher (true, true)),
    act 50 (.apply .main (true, true)),
    .create (node 51), act 51 (.list .main [node 51, node 50, node 49]), .vanish (node 50),
    act 51 (.apply .main (true, true)), act 49 .event, act 51 .event,
    act 49 (.list .watcher [node 51, node 49]), act 49 (.apply .watcher (true, true)),
    act 51 (.list .watcher [node 51, node 49]), act 51 (.apply .watcher (true, true))]

theorem chain_heals_threeStarts : ∃ s, run (step id) .start threeStarts = some s ∧
    (s.server (node 49)).cache = some (addr id (node 51)) ∧ ∃ line, Healed id s line := by
  obtain ⟨s, hrun, hs⟩ := Option.map_eq_some_iff.mp
    (show (run (step id) .start threeStarts).map (fun s : State => decide
      ((∀ x ∈ parsed s.children, (s.server x).Quiet) ∧
        (s.server (node 49)).cache = some (addr id (node 51)))) = some true by decide)
  obtain ⟨hq, hcache⟩ := of_decide_eq_true hs
  exact ⟨s, hrun, hcache, chain_heals id threeStarts s (by decide) hrun hq⟩

end ListServer.ChainHealing
