import ListServer.Topology
import ListServer.Lib.Transition

namespace ListServer.Startup

open Lib.CTypes Lib.Neighbour Lib.Transition ListServer.Topology

/-- Where the main thread of a server stands. `count` is the number of children
in the answer to its `zoo_wget_children`. -/
inductive Main
  | outside
  | created
  | listed (count : Nat)
  | updating (count : Nat)
  | updated (count : Nat)
  | fetching
  | accepting
deriving DecidableEq, Repr

inductive Watcher
  | idle
  | listed (count : Nat)
  | updating
deriving DecidableEq, Repr

/-- The threads of one server and their `rls_lock`. The watch is set by every
`zoo_wget_children` and fires once; an event waits for the end of the callback
before it. -/
structure Proc where
  main : Main
  watcher : Watcher
  rlsLock : Bool
  watch : Bool
  event : Bool
deriving DecidableEq, Repr

def Proc.start : Proc := ⟨.outside, .idle, false, false, false⟩

/-- Servers are numbered as ZooKeeper numbers their children of `/chain`, in the
order of creation. -/
structure State where
  count : Nat
  proc : Nat → Proc

def State.start : State := ⟨0, fun _ => .start⟩

def State.set (s : State) (x : Nat) (p : Proc) : State :=
  { s with proc := fun y => if y = x then p else s.proc y }

inductive Label
  | create
  | list (x : Nat)
  | update (x : Nat)
  | ready (x : Nat)
  | init (x : Nat)
  | fetch (x : Nat)
  | notify (x : Nat)
  | watcherUpdate (x : Nat)
  | watcherReady (x : Nat)
deriving DecidableEq, Repr

/-- The creation of a child fires the watches that are set. -/
def Proc.fire (p : Proc) : Proc := if p.watch then { p with watch := false, event := true } else p

/-- One step of `n` servers that start. Children are never deleted, so the
children a server has listed are those with the numbers below `count`, the next
one above its own is its number plus one, and the one below is its number
minus one. Connecting to a server ends when that server accepts and sends READY. -/
def step (n : Nat) (s : State) : Label → Option State
  | .create =>
    if s.count < n then
      some ⟨s.count + 1, fun x =>
        if x = s.count then { s.proc x with main := .created } else (s.proc x).fire⟩
    else none
  | .list x =>
    let p := s.proc x
    if p.main = .created then some (s.set x { p with main := .listed s.count, watch := true })
    else none
  | .update x =>
    let p := s.proc x
    match p.main, p.rlsLock with
    | .listed k, false =>
      if x + 1 < k then some (s.set x { p with main := .updating k, rlsLock := true })
      else some (s.set x { p with main := .updated k })
    | _, _ => none
  | .ready x =>
    let p := s.proc x
    match p.main, (s.proc (x + 1)).main with
    | .updating k, .accepting => some (s.set x { p with main := .updated k, rlsLock := false })
    | _, _ => none
  | .init x =>
    let p := s.proc x
    match p.main with
    | .updated k =>
      if k ≤ 1 ∨ x = 0 then some (s.set x { p with main := .accepting })
      else some (s.set x { p with main := .fetching })
    | _ => none
  | .fetch x =>
    let p := s.proc x
    match p.main, (s.proc (x - 1)).main with
    | .fetching, .accepting => some (s.set x { p with main := .accepting })
    | _, _ => none
  | .notify x =>
    let p := s.proc x
    match p.watcher, p.event with
    | .idle, true =>
      some (s.set x { p with watcher := .listed s.count, event := false, watch := true })
    | _, _ => none
  | .watcherUpdate x =>
    let p := s.proc x
    match p.watcher, p.rlsLock with
    | .listed k, false =>
      if x + 1 < k then some (s.set x { p with watcher := .updating, rlsLock := true })
      else some (s.set x { p with watcher := .idle })
    | _, _ => none
  | .watcherReady x =>
    let p := s.proc x
    match p.watcher, (s.proc (x + 1)).main with
    | .updating, .accepting => some (s.set x { p with watcher := .idle, rlsLock := false })
    | _, _ => none

section Picks

variable {children : List CString} {count : Nat} {before : Int} {x y : CString}

def Snapshot (children : List CString) (count : Nat) : Prop :=
  ∀ m, (∃ z ∈ parsed children, number z = m) ↔ 0 ≤ m ∧ m < count

/-- The successor that `update` picks from a snapshot has the next number. -/
theorem succ_snapshot (h : Numbered children) (hc : Snapshot children count)
    (hx : x ∈ parsed children) (hy : y ∈ parsed children) :
    succ before children x = some y ↔ number y = number x + 1 := by
  have hs : Successor number (parsed children) (succ before children) := successor_succ h
  rw [hs.eq_some h.injOn hx]
  constructor
  · intro hn
    have hlt := hn.lt
    obtain ⟨z, hz, hzn⟩ := (hc (number x + 1)).mpr
      ⟨by have := (h.bounds x hx).1; omega, by have := ((hc (number y)).mp ⟨y, hy, rfl⟩).2; omega⟩
    have hle := hn.least z hz (by omega)
    omega
  · intro hn
    exact ⟨hy, by omega, fun z _ hz => by omega⟩

theorem pred_snapshot (h : Numbered children) (hc : Snapshot children count)
    (hx : x ∈ parsed children) (hy : y ∈ parsed children) :
    pred before children x = some y ↔ number y = number x - 1 := by
  have hp : Predecessor number (parsed children) (pred before children) := predecessor_pred h
  have hs : Successor number (parsed children) (succ before children) := successor_succ h
  have hsucc : succ before children y = some x ↔ number x = number y + 1 :=
    succ_snapshot h hc hy hx
  rw [hs.eq_some h.injOn hy] at hsucc
  rw [hp.eq_some h.injOn hx, ← next_iff_previous hy hx, hsucc]
  omega

theorem succ_snapshot_none (h : Numbered children) (hc : Snapshot children count)
    (hx : x ∈ parsed children) : succ before children x = none ↔ count ≤ number x + 1 := by
  have hs : Successor number (parsed children) (succ before children) := successor_succ h
  have hx0 := (h.bounds x hx).1
  rw [hs.eq_none hx]
  constructor
  · intro hle
    by_contra hlt
    obtain ⟨z, hz, hzn⟩ := (hc (number x + 1)).mpr ⟨by omega, by omega⟩
    have hz := hle z hz
    omega
  · intro hle z hz
    have hzn := ((hc (number z)).mp ⟨z, hz, rfl⟩).2
    omega

end Picks

def Main.children : Main → Option Nat
  | .listed k => some k
  | _ => none

def Watcher.children : Watcher → Option Nat
  | .listed k => some k
  | _ => none

/-- The main thread has been through its `update`. -/
def Main.pastUpdate : Main → Bool
  | .updated _ | .fetching | .accepting => true
  | _ => false

/-- What is asked of the updates: at start-up a server lists no child above its
own, and its watcher goes for a successor only after that update. -/
def InOrder (s : State) : Label → Prop
  | .update x => ∀ k ∈ (s.proc x).main.children, k ≤ x + 1
  | .watcherUpdate x => ∀ k ∈ (s.proc x).watcher.children, x + 1 < k →
      (s.proc x).main.pastUpdate = true
  | _ => True

instance (s : State) : DecidablePred (InOrder s)
  | .update x => inferInstanceAs (Decidable (∀ k ∈ (s.proc x).main.children, k ≤ x + 1))
  | .watcherUpdate x => inferInstanceAs (Decidable (∀ k ∈ (s.proc x).watcher.children,
      x + 1 < k → (s.proc x).main.pastUpdate = true))
  | .create | .list _ | .ready _ | .init _ | .fetch _ | .notify _ | .watcherReady _ =>
    isTrue trivial

structure Ordered (count x : Nat) (p : Proc) : Prop where
  outside : p.main = .outside ↔ count ≤ x
  updating : ∀ k, p.main ≠ .updating k
  lock : p.rlsLock = true → p.main.pastUpdate = true
  fetching : p.main = .fetching → x ≠ 0

variable {n : Nat} {s t : State} {x : Nat}

theorem ordered_set {p : Proc} (h : ∀ y, Ordered s.count y (s.proc y)) (hp : Ordered s.count x p) :
    ∀ y, Ordered (s.set x p).count y ((s.set x p).proc y) := by
  intro y
  by_cases hy : y = x
  · subst hy
    simpa [State.set] using hp
  · simpa [State.set, hy] using h y

theorem ordered_create (h : ∀ y, Ordered s.count y (s.proc y)) (y : Nat) :
    Ordered (s.count + 1) y
      (if y = s.count then { s.proc y with main := .created } else (s.proc y).fire) := by
  by_cases hy : y = s.count
  · have hlock : (s.proc y).rlsLock = true → False := by
      intro hl
      have hpast := (h y).lock hl
      rw [(h y).outside.mpr hy.ge] at hpast
      cases hpast
    rw [if_pos hy]
    exact ⟨by simp [hy], by simp, fun hl => (hlock hl).elim, by simp⟩
  · have hmain : (s.proc y).fire.main = (s.proc y).main ∧
        (s.proc y).fire.rlsLock = (s.proc y).rlsLock := by
      unfold Proc.fire
      split <;> exact ⟨rfl, rfl⟩
    have hout := (h y).outside
    rw [if_neg hy]
    refine ⟨?_, fun k => hmain.1 ▸ (h y).updating k, ?_, fun hf => (h y).fetching (hmain.1 ▸ hf)⟩
    · rw [hmain.1, hout]
      omega
    · rw [hmain.1, hmain.2]
      exact (h y).lock

theorem Ordered.congr {count : Nat} {p q : Proc} (h : Ordered count x p) (hm : q.main = p.main)
    (hl : q.rlsLock = p.rlsLock) : Ordered count x q where
  outside := hm ▸ h.outside
  updating := hm ▸ h.updating
  lock := hl ▸ hm ▸ h.lock
  fetching := hm ▸ h.fetching

theorem Ordered.move {count : Nat} {p : Proc} (h : Ordered count x p) {m : Main} {w : Bool}
    (hp : p.main ≠ .outside) (hm : m ≠ .outside) (hu : ∀ k, m ≠ .updating k)
    (hl : p.rlsLock = true → m.pastUpdate = true) (hf : m = .fetching → x ≠ 0) :
    Ordered count x { p with main := m, watch := w } where
  outside := by
    have hout := h.outside
    simpa [hp, hm] using hout
  updating := hu
  lock := hl
  fetching := hf

theorem ordered_step {l : Label} (h : ∀ y, Ordered s.count y (s.proc y)) (hg : InOrder s l)
    (hs : step n s l = some t) : ∀ y, Ordered t.count y (t.proc y) := by
  cases l with
  | create =>
    obtain ⟨-, hs⟩ := Option.ite_none_right_eq_some.mp hs
    obtain rfl := Option.some.inj hs
    exact ordered_create h
  | list x =>
    obtain ⟨hm, hs⟩ := Option.ite_none_right_eq_some.mp hs
    obtain rfl := Option.some.inj hs
    refine ordered_set h ((h x).move (by simp [hm]) (by simp) (by simp) (fun hl => ?_) (by simp))
    have hpast := (h x).lock hl
    rw [hm] at hpast
    cases hpast
  | update x =>
    simp only [step] at hs
    split at hs
    next k hm hl =>
      have hk : k ≤ x + 1 := hg k (by simp [hm, Main.children])
      rw [if_neg (by omega)] at hs
      obtain rfl := Option.some.inj hs
      exact ordered_set h ((h x).move (by simp [hm]) (by simp) (by simp) (fun _ => rfl) (by simp))
    next => cases hs
  | ready x =>
    simp only [step] at hs
    split at hs
    next k hm _ => exact absurd hm ((h x).updating k)
    next => cases hs
  | init x =>
    simp only [step] at hs
    split at hs
    next k hm =>
      split at hs
      next =>
        obtain rfl := Option.some.inj hs
        exact ordered_set h ((h x).move (by simp [hm]) (by simp) (by simp) (fun _ => rfl) (by simp))
      next hk =>
        obtain rfl := Option.some.inj hs
        exact ordered_set h ((h x).move (by simp [hm]) (by simp) (by simp) (fun _ => rfl)
          (fun _ hx => hk (.inr hx)))
    next => cases hs
  | fetch x =>
    simp only [step] at hs
    split at hs
    next hm _ =>
      obtain rfl := Option.some.inj hs
      exact ordered_set h ((h x).move (by simp [hm]) (by simp) (by simp) (fun _ => rfl) (by simp))
    next => cases hs
  | notify x =>
    simp only [step] at hs
    split at hs
    next =>
      obtain rfl := Option.some.inj hs
      exact ordered_set h ((h x).congr rfl rfl)
    next => cases hs
  | watcherUpdate x =>
    simp only [step] at hs
    split at hs
    next k hw hl =>
      split at hs
      next hk =>
        obtain rfl := Option.some.inj hs
        have hpast := hg k (by simp [hw, Watcher.children]) hk
        exact ordered_set h ⟨(h x).outside, (h x).updating, fun _ => hpast, (h x).fetching⟩
      next =>
        obtain rfl := Option.some.inj hs
        exact ordered_set h ((h x).congr rfl rfl)
    next => cases hs
  | watcherReady x =>
    simp only [step] at hs
    split at hs
    next =>
      obtain rfl := Option.some.inj hs
      exact ordered_set h ⟨(h x).outside, (h x).updating, nofun, (h x).fetching⟩
    next => cases hs

theorem enabled_or_fetching (h : ∀ y, Ordered s.count y (s.proc y)) (hx : x < s.count)
    (hna : (s.proc x).main ≠ .accepting) :
    (∃ l, Enabled (step n) s l) ∨ (s.proc x).main = .fetching := by
  cases hm : (s.proc x).main with
  | outside =>
    have hcount := (h x).outside.mp hm
    omega
  | created => exact .inl ⟨.list x, by simp [Enabled, step, hm]⟩
  | listed k =>
    have hl : (s.proc x).rlsLock = false := by
      by_contra hl
      have hpast := (h x).lock (by simpa using hl)
      rw [hm] at hpast
      cases hpast
    refine .inl ⟨.update x, ?_⟩
    by_cases hk : x + 1 < k <;> simp [Enabled, step, hm, hl, hk]
  | updating k => exact absurd hm ((h x).updating k)
  | updated k =>
    refine .inl ⟨.init x, ?_⟩
    by_cases hk : k ≤ 1 ∨ x = 0 <;> simp [Enabled, step, hm, hk]
  | fetching => exact .inr rfl
  | accepting => exact absurd hm hna

/-- The waits for a predecessor's list lead down to a server that can go on. -/
theorem ordered_enabled (h : ∀ y, Ordered s.count y (s.proc y)) (hx : x < s.count)
    (hna : (s.proc x).main ≠ .accepting) : ∃ l, Enabled (step n) s l := by
  induction x with
  | zero =>
    obtain he | hf := enabled_or_fetching (n := n) h hx hna
    · exact he
    · exact absurd rfl ((h 0).fetching hf)
  | succ x ih =>
    obtain he | hf := enabled_or_fetching (n := n) h hx hna
    · exact he
    · by_cases hp : (s.proc x).main = .accepting
      · exact ⟨.fetch (x + 1), by simp [Enabled, step, hf, hp]⟩
      · exact ih (by omega) hp

/-- If updates are in order, servers that start together do not block each other. -/
theorem startup_not_stuck (n : Nat) (ls : List Label) (s : State)
    (horder : Meets (step n) InOrder .start ls) (hrun : run (step n) .start ls = some s) (x : Nat)
    (hx : x < n) (hna : (s.proc x).main ≠ .accepting) : ∃ l, Enabled (step n) s l := by
  have hstart : ∀ y, Ordered State.start.count y (State.start.proc y) := fun y =>
    ⟨by simp [State.start, Proc.start], by simp [State.start, Proc.start],
      by simp [State.start, Proc.start], by simp [State.start, Proc.start]⟩
  have h := run_invariant (step n) (I := fun s => ∀ y, Ordered s.count y (s.proc y))
    (fun s l t hst hg hs => ordered_step hst hg hs) hstart horder hrun
  by_cases hc : s.count < n
  · exact ⟨.create, by simp [Enabled, step, hc]⟩
  · exact ordered_enabled h (by omega) hna

theorem startup_not_stuck_second :
    ∃ s, run (step 2) .start [.create, .list 0, .update 0, .create, .list 1] = some s ∧
      ∃ l, Enabled (step 2) s l := by
  obtain ⟨s, hs, hm⟩ := Option.map_eq_some_iff.mp (show (run (step 2) .start
    [.create, .list 0, .update 0, .create, .list 1]).map (fun s => (s.proc 1).main) =
      some (.listed 2) by decide)
  exact ⟨s, hs, startup_not_stuck 2 _ s (by decide) hs 1 (by omega) (by rw [hm]; decide)⟩

def bothCreated : List Label :=
  [.create, .create, .list 0, .list 1, .update 0, .update 1, .init 1]

/-- The first one then waits for READY from the second one, which waits for
READY from the first one. -/
theorem startup_stuck :
    ∃ s, run (step 2) .start bothCreated = some s ∧ (s.proc 0).main ≠ .accepting ∧
      (s.proc 1).main ≠ .accepting ∧ ¬ ∃ l, Enabled (step 2) s l := by
  obtain ⟨s, hs, hp⟩ : ∃ s, run (step 2) .start bothCreated = some s ∧ s.count = 2 ∧
      s.proc 0 = ⟨.updating 2, .idle, true, true, false⟩ ∧
      s.proc 1 = ⟨.fetching, .idle, false, true, false⟩ ∧ ∀ x, s.proc (x + 2) = .start :=
    ⟨_, rfl, rfl, rfl, rfl, fun _ => rfl⟩
  obtain ⟨hcount, h0, h1, h2⟩ := hp
  refine ⟨s, hs, by simp [h0], by simp [h1], ?_⟩
  rintro ⟨l, t, ht⟩
  cases l with
  | create => simp [step, hcount] at ht
  | list x | update x | ready x | init x | fetch x | notify x | watcherUpdate x | watcherReady x =>
    obtain _ | _ | x := x <;> simp [step, h0, h1, h2, Proc.start] at ht

end ListServer.Startup
