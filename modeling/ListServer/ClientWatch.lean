import ListServer.Topology
import ListServer.Lib.Transition

namespace ListServer.ClientWatch

open Lib.CTypes Lib.Transition ChainServer
open ListServer.Topology

/-- The two calls of `update_remote_list` that `update` makes. -/
inductive Half
  | head
  | tail
deriving DecidableEq, Repr

def Half.node : Half → List CString → Option CString
  | .head => clientHead
  | .tail => clientTail

def lineOf (data : CString) : CString :=
  ⟨data.bytes.takeWhile (fun b => decide (b ≠ 13 ∧ b ≠ 10)), fun b hb =>
    data.nonzero b ((List.takeWhile_prefix _).subset hb)⟩

/-- How far a thread is with the children: about to read them, before `zoo_get`
for one half, or with the address in its buffer. -/
inductive Stage
  | idle
  | listing
  | updating (h : Half) (children : List CString)
  | connecting (h : Half) (children : List CString) (buffer : CString)
deriving DecidableEq, Repr

def Stage.afterList (children : List CString) : Stage :=
  if children = [] then .idle else .updating .head children

def Stage.after (h : Half) (children : List CString) : Stage :=
  match h with
  | .head => .updating .tail children
  | .tail => .idle

inductive Thread
  | main
  | watcher
deriving DecidableEq, Repr

/-- The children of `/chain` with the watch on them and the event that waits for
its handler, the two threads of the client and the addresses of its connections. -/
structure State where
  children : List CString
  watch : Bool
  pending : Bool
  stage : Thread → Stage
  remote : Half → Option CString

/-- A children list as servers make it. -/
structure Children where
  names : List CString
  numbered : Numbered names

/-- `zoo_init_client` is about to read the children, of which there may be none yet. -/
def State.start (children : Option Children) (remote : Half → Option CString) : State :=
  ⟨children.elim [] Children.names, false, false, fun i => match i with
    | .main => .listing
    | .watcher => .idle, remote⟩

def State.setStage (s : State) (i : Thread) (stage : Stage) : State :=
  { s with stage := fun j => if j = i then stage else s.stage j }

/-- The children change, the watcher is called for the event, and a thread
reads the children, reads a node or connects to it under the lock. -/
inductive Act
  | change (children : Children)
  | event
  | list (i : Thread)
  | get (i : Thread)
  | connect (i : Thread) (connected : Bool)

/-- A node can be read while it exists. -/
def zooGet (data : CString → CString) (children : List CString) (node : Option CString) :
    Option CString :=
  node.bind fun name => if name ∈ children then some (data name) else none

def Alive (s : State) (h : Half) (children : List CString) : Prop :=
  ∃ node ∈ h.node children, node ∈ s.children

instance (s : State) (h : Half) (children : List CString) : Decidable (Alive s h children) :=
  match hn : h.node children with
  | none => isFalse fun ⟨_, hx, _⟩ => by simp [hn] at hx
  | some node => decidable_of_iff (node ∈ s.children) (by simp [Alive, hn])

/-- `data` gives what the nodes hold. A connection to the server of a node that
exists succeeds. -/
def step (data : CString → CString) (s : State) : Act → Option State
  | .change children =>
    some { s with children := children.names, watch := false, pending := s.pending || s.watch }
  | .event =>
    if s.stage .watcher = .idle ∧ s.pending then
      some { s.setStage .watcher .listing with pending := false }
    else none
  | .list i =>
    if s.stage i = .listing then
      some { s.setStage i (.afterList s.children) with watch := true }
    else none
  | .get i =>
    match s.stage i with
    | .updating h children =>
      match zooGet data s.children (h.node children) with
      | some buffer => some (s.setStage i (.connecting h children (lineOf buffer)))
      | none => some (s.setStage i (.after h children))
    | _ => none
  | .connect i connected =>
    match s.stage i with
    | .connecting h children buffer =>
      if Alive s h children → connected then
        some { s.setStage i (.after h children) with
          remote := fun k =>
            if k = h then (if connected then some buffer else none) else s.remote k }
      else none
    | _ => none

/-- Once all events have been handled and `zoo_init_client` is through, the
connections go to the nodes with the least and the greatest number. -/
def EndsLatest (data : CString → CString) (s : State) : Prop :=
  s.stage .main = .idle → s.stage .watcher = .idle → s.pending = false →
    ∀ x ∈ parsed s.children,
      ((∀ y ∈ parsed s.children, number x ≤ number y) →
        s.remote .head = some (lineOf (data x))) ∧
      ((∀ y ∈ parsed s.children, number y ≤ number x) →
        s.remote .tail = some (lineOf (data x)))

/-- The thread has yet to connect this half for the event it handles. -/
def Stage.before (k : Half) : Stage → Bool
  | .idle => false
  | .listing => true
  | .updating h _ | .connecting h _ _ => decide (h = .head ∨ k = .tail)

/-- What is asked of `zoo_init_client` when it connects one half: the watcher
has an event to handle or still has to connect this half, or the current
children lead to the same node. -/
def OnTime (s : State) : Act → Prop
  | .connect .main _ =>
    match s.stage .main with
    | .connecting h children _ => s.pending = true ∨ (s.stage .watcher).before h = true ∨
        h.node children = h.node s.children
    | _ => True
  | _ => True

instance (s : State) (a : Act) : Decidable (OnTime s a) := by
  unfold OnTime
  split
  · split <;> infer_instance
  · infer_instance

def Stage.snapshot : Stage → Option (List CString)
  | .updating _ children | .connecting _ children _ => some children
  | _ => none

def Stage.Due (stage : Stage) (k : Half) (children : List CString) : Prop :=
  stage.before k = true ∧ stage.snapshot = some children

def Right (data : CString → CString) (s : State) (k : Half) : Prop :=
  ∀ x, k.node s.children = some x → s.remote k = some (lineOf (data x))

/-- The half is right or will be connected by a thread that knows the children. -/
def Cared (data : CString → CString) (s : State) (k : Half) : Prop :=
  (∃ i, (s.stage i).Due k s.children) ∨ Right data s k

/-- While the watch is set, the latest reader of the children has read what
they still are. -/
structure Inv (data : CString → CString) (s : State) : Prop where
  pending : s.pending = true → s.watch = false
  starting : s.stage .main = .listing →
    s.stage .watcher = .idle ∧ s.pending = false ∧ s.watch = false
  handling : s.stage .watcher = .listing → s.watch = false ∧ s.pending = false
  fired : s.watch = false →
    s.stage .main = .listing ∨ s.pending = true ∨ s.stage .watcher = .listing
  current : s.watch = true → ∀ children, (s.stage .watcher).snapshot = some children →
    children = s.children
  buffer : ∀ i h children buffer, s.stage i = .connecting h children buffer →
    ∃ x, h.node children = some x ∧ buffer = lineOf (data x)
  numbered : s.children = [] ∨ Numbered s.children
  cared : s.watch = true → ∀ k, Cared data s k

section Preservation

variable {data : CString → CString} {s s' : State} {a : Act} {h k : Half} {i : Thread}
  {children : List CString}

theorem Half.node_mem {x : CString} (hx : h.node children = some x) : x ∈ children := by
  cases h with
  | head => exact List.mem_of_getElem? hx
  | tail => exact List.mem_of_getElem? hx

theorem setStage_self (s : State) (i : Thread) (stage : Stage) :
    (s.setStage i stage).stage i = stage := if_pos rfl

theorem setStage_ne (s : State) {i j : Thread} (stage : Stage) (hj : j ≠ i) :
    (s.setStage i stage).stage j = s.stage j := if_neg hj

theorem due_after (h k : Half) (children cs : List CString) :
    (Stage.after h children).Due k cs ↔ children = cs ∧ h = .head ∧ k = .tail := by
  cases h <;> cases k <;> simp [Stage.after, Stage.Due, Stage.before, Stage.snapshot]

theorem snapshot_after {cs : List CString}
    (hs : (Stage.after h children).snapshot = some cs) : children = cs := by
  cases h with
  | head => exact Option.some.inj hs
  | tail => cases hs

theorem after_ne_listing (h : Half) (children : List CString) :
    Stage.after h children ≠ .listing := by
  cases h <;> simp [Stage.after]

theorem inv_start (data : CString → CString) (children : Option Children)
    (remote : Half → Option CString) : Inv data (.start children remote) where
  pending _ := rfl
  starting _ := ⟨rfl, rfl, rfl⟩
  handling hs := by cases hs
  fired _ := .inl rfl
  current hw := by cases hw
  buffer i h cs buffer hs := by cases i <;> cases hs
  numbered := by
    cases children with
    | none => exact .inl rfl
    | some c => exact .inr c.numbered
  cared hw := by cases hw

/-- A step in which thread `i` is past reading the children: it keeps its
snapshot, and it leaves no half without care. -/
theorem inv_advance (hI : Inv data s) {stage : Stage} (remote : Half → Option CString)
    (hold : s.stage i ≠ .listing) (hidle : s.stage i ≠ .idle) (hnew : stage ≠ .listing)
    (hsnapshot : ∀ cs, stage.snapshot = some cs → (s.stage i).snapshot = some cs)
    (hbuffer : ∀ h cs buffer, stage = .connecting h cs buffer →
      ∃ x, h.node cs = some x ∧ buffer = lineOf (data x))
    (hcared : s.watch = true → ∀ k, Cared data s k →
      Cared data { s.setStage i stage with remote := remote } k) :
    Inv data { s.setStage i stage with remote := remote } := by
  have hlist : ∀ j, (s.setStage i stage).stage j = .listing ↔ s.stage j = .listing := fun j => by
    by_cases hj : j = i
    · subst hj
      rw [setStage_self]
      exact iff_of_false hnew hold
    · rw [setStage_ne s stage hj]
  refine ⟨hI.pending, fun hm => ?_, fun hw => hI.handling ((hlist _).mp hw), fun hw => ?_,
    fun hw cs hcs => ?_, fun j h cs buffer hj => ?_, hI.numbered,
    fun hw k => hcared hw k (hI.cared hw k)⟩
  · have hst := hI.starting ((hlist _).mp hm)
    cases i with
    | main => exact absurd ((hlist _).mp hm) hold
    | watcher => exact absurd hst.1 hidle
  · exact (hI.fired hw).imp (hlist _).mpr (Or.imp_right (hlist _).mpr)
  · cases i with
    | watcher => exact hI.current hw cs (hsnapshot cs hcs)
    | main => exact hI.current hw cs hcs
  · by_cases hji : j = i
    · subst hji
      rw [setStage_self] at hj
      exact hbuffer h cs buffer hj
    · rw [setStage_ne s stage hji] at hj
      exact hI.buffer j h cs buffer hj

theorem half_of_stage
    (hstage : s.stage i = .updating h children ∨ ∃ buffer, s.stage i = .connecting h children buffer) :
    (∀ k, (s.stage i).before k = decide (h = .head ∨ k = .tail)) ∧
      (s.stage i).snapshot = some children := by
  obtain hstage | ⟨buffer, hstage⟩ := hstage <;> rw [hstage] <;> exact ⟨fun _ => rfl, rfl⟩

/-- The thread is through with half `h`. -/
theorem cared_after {remote : Half → Option CString}
    (hbefore : ∀ k, (s.stage i).before k = decide (h = .head ∨ k = .tail))
    (hsnapshot : (s.stage i).snapshot = some children)
    (hother : ∀ k, k ≠ h → remote k = s.remote k)
    (hdone : children = s.children → Right data { s with remote := remote } h)
    (hkeep : Right data s h → Cared data { s.setStage i (.after h children) with remote := remote } h)
    (hc : Cared data s k) :
    Cared data { s.setStage i (.after h children) with remote := remote } k := by
  obtain ⟨j, hj⟩ | hr := hc
  · by_cases hji : j = i
    · subst hji
      obtain ⟨hb, hs⟩ := hj
      obtain rfl := Option.some.inj (hsnapshot.symm.trans hs)
      rw [hbefore, decide_eq_true_iff] at hb
      by_cases hk : k = h
      · subst hk
        exact .inr (hdone rfl)
      · refine .inl ⟨j, ?_⟩
        dsimp only
        rw [setStage_self, due_after]
        cases h <;> cases k <;> simp_all [State.setStage]
    · refine .inl ⟨j, ?_⟩
      dsimp only
      rw [setStage_ne s _ hji]
      exact hj
  · by_cases hk : k = h
    · subst hk
      exact hkeep hr
    · exact .inr fun x hx => (hother k hk).trans (hr x hx)

theorem zooGet_eq_some {node : Option CString} {buffer : CString} :
    zooGet data children node = some buffer ↔
      ∃ x, node = some x ∧ x ∈ children ∧ data x = buffer := by
  simp [zooGet, Option.bind_eq_some_iff]

theorem inv_get (hI : Inv data s) (hs : step data s (.get i) = some s') : Inv data s' := by
  simp only [step] at hs
  split at hs
  next h children hstage =>
    obtain ⟨hbefore, hsnapshot⟩ := half_of_stage (.inl hstage)
    split at hs
    next buffer hget =>
      obtain rfl := Option.some.inj hs
      obtain ⟨x, hx, -, rfl⟩ := zooGet_eq_some.mp hget
      refine inv_advance hI s.remote (by simp [hstage]) (by simp [hstage]) (by simp)
        (fun cs hcs => hsnapshot.trans hcs) (fun h' cs buffer heq => ?_) fun _ k hc => ?_
      · obtain ⟨rfl, rfl, rfl⟩ := Stage.connecting.inj heq
        exact ⟨x, hx, rfl⟩
      · obtain ⟨j, hj⟩ | hr := hc
        · refine .inl ⟨j, ?_⟩
          by_cases hji : j = i
          · subst hji
            rw [hstage] at hj
            dsimp only
            rw [setStage_self]
            exact hj
          · dsimp only
            rw [setStage_ne s _ hji]
            exact hj
        · exact .inr hr
    next hget =>
      obtain rfl := Option.some.inj hs
      refine inv_advance hI s.remote (by simp [hstage]) (by simp [hstage])
        (after_ne_listing h children) (fun cs hcs => ?_) (fun h' cs buffer heq => ?_)
        fun _ k => cared_after hbefore hsnapshot (fun _ _ => rfl) (fun he x hx => ?_) .inr
      · rw [hsnapshot, snapshot_after hcs]
      · cases h <;> cases heq
      · rw [he] at hget
        have hsome : zooGet data s.children (h.node s.children) = some (data x) :=
          zooGet_eq_some.mpr ⟨x, hx, Half.node_mem hx, rfl⟩
        cases hget.symm.trans hsome
  next => cases hs

theorem Inv.due_of_before (hI : Inv data s) (hw : s.watch = true)
    (hb : (s.stage .watcher).before h = true) : (s.stage .watcher).Due h s.children := by
  refine ⟨hb, ?_⟩
  cases hst : s.stage .watcher with
  | idle =>
    rw [hst] at hb
    cases hb
  | listing => cases hw.symm.trans (hI.handling hst).1
  | updating k children | connecting k children buffer =>
    have hcur := hI.current hw children (by rw [hst]; rfl)
    rw [hcur]
    rfl

theorem inv_connect (hI : Inv data s) {connected : Bool}
    (hG : OnTime s (.connect i connected))
    (hs : step data s (.connect i connected) = some s') : Inv data s' := by
  simp only [step] at hs
  split at hs
  next h children buffer hstage =>
    obtain ⟨halive, hs⟩ := Option.ite_none_right_eq_some.mp hs
    obtain rfl := Option.some.inj hs
    obtain ⟨hbefore, hsnapshot⟩ := half_of_stage (.inr ⟨buffer, hstage⟩)
    obtain ⟨x, hx, rfl⟩ := hI.buffer i h children buffer hstage
    have hright : h.node children = h.node s.children → ∀ y, h.node s.children = some y →
        (if connected then some (lineOf (data x)) else none) = some (lineOf (data y)) :=
      fun he y hy => by
        obtain rfl : x = y := Option.some.inj (hx.symm.trans (he.trans hy))
        rw [if_pos (halive ⟨x, hx, Half.node_mem hy⟩)]
    refine inv_advance hI _ (by simp [hstage]) (by simp [hstage]) (after_ne_listing h children)
      (fun cs hcs => ?_) (fun h' cs buffer heq => ?_)
      fun hw k => cared_after hbefore hsnapshot (fun k hk => if_neg hk) (fun he y hy => ?_)
        fun _ => ?_
    · rw [hsnapshot, snapshot_after hcs]
    · cases h <;> cases heq
    · dsimp only
      rw [if_pos rfl]
      exact hright (by rw [he]) y hy
    · cases i with
      | watcher =>
        have hcur := hI.current hw children hsnapshot
        refine .inr fun y hy => ?_
        dsimp only
        rw [if_pos rfl]
        exact hright (by rw [hcur]) y hy
      | main =>
        simp only [OnTime, hstage] at hG
        obtain hp | hb | he := hG
        · cases hw.symm.trans (hI.pending hp)
        · exact .inl ⟨.watcher, hI.due_of_before hw hb⟩
        · refine .inr fun y hy => ?_
          dsimp only
          rw [if_pos rfl]
          exact hright he y hy
  next => cases hs

theorem inv_list (hI : Inv data s) (hs : step data s (.list i) = some s') : Inv data s' := by
  obtain ⟨hstage, hs⟩ := Option.ite_none_right_eq_some.mp hs
  obtain rfl := Option.some.inj hs
  have hquiet : s.pending = false ∧ ∀ j, j ≠ i → s.stage j ≠ .listing ∧
      (j = .watcher → s.stage j = .idle) := by
    cases i with
    | main =>
      obtain ⟨hidle, hp, -⟩ := hI.starting hstage
      refine ⟨hp, fun j hj => ?_⟩
      cases j with
      | main => exact absurd rfl hj
      | watcher => exact ⟨by rw [hidle]; exact nofun, fun _ => hidle⟩
    | watcher =>
      refine ⟨(hI.handling hstage).2, fun j hj => ?_⟩
      cases j with
      | main =>
        refine ⟨fun hm => ?_, fun he => by cases he⟩
        cases hstage.symm.trans (hI.starting hm).1
      | watcher => exact absurd rfl hj
  have hlist : Stage.afterList s.children ≠ .listing := by
    unfold Stage.afterList
    split <;> exact nofun
  have hnone : ∀ j, (s.setStage i (.afterList s.children)).stage j ≠ .listing := fun j => by
    by_cases hj : j = i
    · rw [hj, setStage_self]
      exact hlist
    · rw [setStage_ne s _ hj]
      exact (hquiet.2 j hj).1
  refine ⟨fun hp => ?_, fun hm => absurd hm (hnone _), fun hw => absurd hw (hnone _),
    fun hw => (by cases hw), fun _ cs hcs => ?_, fun j h cs buffer hj => ?_, hI.numbered,
    fun _ k => ?_⟩
  · cases hquiet.1.symm.trans hp
  · by_cases hi : Thread.watcher = i
    · subst hi
      dsimp only at hcs
      rw [setStage_self, Stage.afterList] at hcs
      split at hcs
      · cases hcs
      · exact (Option.some.inj hcs).symm
    · dsimp only at hcs
      rw [setStage_ne s _ hi, (hquiet.2 .watcher hi).2 rfl] at hcs
      cases hcs
  · by_cases hi : j = i
    · subst hi
      dsimp only at hj
      rw [setStage_self, Stage.afterList] at hj
      split at hj <;> cases hj
    · dsimp only at hj
      rw [setStage_ne s _ hi] at hj
      exact hI.buffer j h cs buffer hj
  · by_cases hempty : s.children = []
    · refine .inr fun x hx => ?_
      have hmem : x ∈ s.children := Half.node_mem hx
      rw [hempty] at hmem
      cases hmem
    · refine .inl ⟨i, ?_⟩
      dsimp only
      rw [setStage_self, Stage.afterList, if_neg hempty]
      exact ⟨by cases k <;> rfl, rfl⟩

theorem inv_step (hI : Inv data s) (hG : OnTime s a) (hs : step data s a = some s') :
    Inv data s' := by
  cases a with
  | change c =>
    obtain rfl := Option.some.inj hs
    refine ⟨fun _ => rfl, fun hm => ?_, fun hw => ?_, fun _ => ?_, fun hw => (by cases hw),
      hI.buffer, .inr c.numbered, fun hw => (by cases hw)⟩
    · obtain ⟨hidle, hp, hw⟩ := hI.starting hm
      exact ⟨hidle, by simp [hp, hw], rfl⟩
    · obtain ⟨hwatch, hp⟩ := hI.handling hw
      exact ⟨rfl, by simp [hp, hwatch]⟩
    · cases hw : s.watch with
      | true => exact .inr (.inl (by simp))
      | false => exact (hI.fired hw).imp_right (Or.imp_left fun hp => by simp [hp])
  | event =>
    obtain ⟨⟨hidle, hp⟩, hs⟩ := Option.ite_none_right_eq_some.mp hs
    obtain rfl := Option.some.inj hs
    have hwatch := hI.pending hp
    refine ⟨fun hp => (by cases hp), fun hm => ?_, fun _ => ⟨hwatch, rfl⟩, fun _ => .inr (.inr rfl),
      fun hw => ?_, fun j h cs buffer hj => ?_, hI.numbered, fun hw => ?_⟩
    · cases hp.symm.trans (hI.starting hm).2.1
    · cases hwatch.symm.trans hw
    · cases j with
      | main => exact hI.buffer .main h cs buffer hj
      | watcher => cases hj
    · cases hwatch.symm.trans hw
  | list i => exact inv_list hI hs
  | get i => exact inv_get hI hs
  | connect i connected => exact inv_connect hI hG hs

end Preservation

/-- When both threads are through and no event waits, both halves are right. -/
theorem Inv.endsLatest {data : CString → CString} {s : State} (hI : Inv data s) :
    EndsLatest data s := by
  intro hmain hwatcher hp x hx
  have hw : s.watch = true := by
    by_contra hw
    obtain hm | hp' | hl := hI.fired (Bool.not_eq_true _ ▸ hw)
    · cases hmain.symm.trans hm
    · cases hp.symm.trans hp'
    · cases hwatcher.symm.trans hl
  have hright : ∀ k, Right data s k := fun k => by
    obtain ⟨i, hdue, -⟩ | hr := hI.cared hw k
    · cases i with
      | main =>
        rw [hmain] at hdue
        cases hdue
      | watcher =>
        rw [hwatcher] at hdue
        cases hdue
    · exact hr
  obtain hempty | hnum := hI.numbered
  · rw [hempty] at hx
    cases hx
  · constructor
    · intro hmin
      obtain ⟨head, hmem, hhead, hle⟩ := clientHead_spec hnum
      obtain rfl : x = head := hnum.injOn hx hmem (le_antisymm (hmin head hmem) (hle x hx))
      exact hright .head x hhead
    · intro hmax
      obtain ⟨tail, hmem, htail, hle⟩ := clientTail_spec hnum
      obtain rfl : x = tail := hnum.injOn hx hmem (le_antisymm (hle x hx) (hmax tail hmem))
      exact hright .tail x htail

/-- In a run in which `zoo_init_client` connects on time, the client ends with
the latest head and tail. -/
theorem ends_latest (data : CString → CString) (children : Option Children)
    (remote : Half → Option CString) (as : List Act)
    (h : Meets (step data) OnTime (.start children remote) as) : ∀ ks ms s, as = ks ++ ms →
      run (step data) (.start children remote) ks = some s → EndsLatest data s := by
  intro ks ms s he hrun
  have hinv := reached_invariant (step data) (fun _ _ _ => inv_step)
    (inv_start data children remote) h
  exact (hinv ks ms s he hrun).endsLatest

def oneNode : Children :=
  ⟨[ofBytes (nodeLiteral ++ [49])], ⟨by decide, by decide, by decide⟩⟩

def twoNodes : Children :=
  ⟨[ofBytes (nodeLiteral ++ [49]), ofBytes (nodeLiteral ++ [50])],
    ⟨by decide, by decide, by decide⟩⟩

def handler : List Act :=
  [.event, .list .watcher, .get .watcher, .connect .watcher true, .get .watcher,
    .connect .watcher true]

/-- The second server comes after `zoo_init_client` has returned. -/
def startThenChange : List Act :=
  [.list .main, .get .main, .connect .main true, .get .main, .connect .main true,
    .change twoNodes] ++ handler

theorem ends_latest_startThenChange :
    ∃ s, run (step id) (.start (some oneNode) fun _ => none) startThenChange = some s ∧
      EndsLatest id s :=
  ⟨_, rfl, ends_latest id (some oneNode) (fun _ => none) startThenChange (by decide)
    startThenChange [] _ (List.append_nil _).symm rfl⟩

/-- The second server comes before `zoo_init_client` connects to the tail. -/
def changeInBetween : List Act :=
  [.list .main, .get .main, .connect .main true, .get .main, .change twoNodes] ++ handler ++
    [.connect .main true]

theorem ends_with_old_tail : ¬ ∀ ks ms s, changeInBetween = ks ++ ms →
    run (step id) (.start (some oneNode) fun _ => none) ks = some s → EndsLatest id s := by
  intro h
  have hend := h changeInBetween [] _ (List.append_nil _).symm rfl rfl rfl rfl
    (ofBytes (nodeLiteral ++ [50])) (by decide)
  exact absurd (hend.2 (by decide)) (by decide)

end ListServer.ClientWatch
