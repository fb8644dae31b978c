import ListServer.ClientStub
import ListServer.Joining
import ListServer.Lib.Transition

namespace ListServer.JoinProgress

open Lib.Transition CarList Message Skeleton ClientThread ChainControl ListTransfer Joining
open ClientStub (toyotaRequest)
open ChainSystem (isOwn)

variable {t : AnoAtual} {s s' : State}

def writeReceived : Phase → Bool
  | .received r => needsForward r.msg
  | _ => false

def writeLocked : Phase → Bool
  | .locked r => needsForward r.msg
  | _ => false

/-- What is asked of the steps, as long as the new server has not got the list:
no write takes `lock_list` while the watcher's update holds `rls_lock`, and the
watcher does not take `rls_lock` while a write waits for it. -/
def NoCycle (s : State) : Label → Prop
  | .own (.lock c) => s.watch = .updating → Unserved s → writeReceived (s.p.phase c) = false
  | .watchUpdate => Unserved s → ∀ c ∈ s.p.lockList, writeLocked (s.p.phase c) = false
  | _ => True

instance (s : State) : DecidablePred (NoCycle s)
  | .own (.lock c) => inferInstanceAs
      (Decidable (s.watch = .updating → Unserved s → writeReceived (s.p.phase c) = false))
  | .watchUpdate => inferInstanceAs
      (Decidable (Unserved s → ∀ c ∈ s.p.lockList, writeLocked (s.p.phase c) = false))
  | .own (.receive _) | .own (.link _) | .own (.alone _) | .own (.release _) | .own (.reply _)
  | .own (.deliver _ _) | .own (.forward _) | .own (.back _ _) | .own (.invoke _) | .own (.take _)
  | .send _ _ | .invoke _ | .answer _ | .forward _ | .back _ | .nOwn _ | .nInvoke _ | .main
  | .notify | .watchReady | .watchLost => isTrue trivial

/-- The three waits of the cycle: the watcher for the new server, the new
server for the list, which needs `lock_list`, and a write for the watcher. -/
def Blocked (s : State) : Prop :=
  s.watch = .updating ∧ Unserved s ∧ ∃ c, writeLocked (s.p.phase c) = true

theorem setPhase_writeLocked {u : Server} {c d : Conn} {q : Phase} (hq : writeLocked q = false)
    (h : writeLocked ((u.setPhase c q).phase d) = true) : writeLocked (u.phase d) = true := by
  by_cases hd : d = c
  · subst hd
    simp [hq] at h
  · simpa [hd] using h

theorem setPhase_unserved {u : Server} {c : Conn} {q : Phase}
    (hq : c = .succ → (u.phase .succ).executed = none)
    (h : ((u.setPhase c q).phase .succ).executed = none) : (u.phase .succ).executed = none := by
  by_cases hc : Conn.succ = c
  · exact hq hc.symm
  · simpa [hc] using h

theorem blocked_of_p {p n : Server} (hb : Blocked { s with p := p, n := n })
    (hx : (p.phase .succ).executed = none → (s.p.phase .succ).executed = none)
    (hl : ∀ c, writeLocked (p.phase c) = true → s.watch = .updating → Unserved s →
      writeLocked (s.p.phase c) = true) : Blocked s := by
  obtain ⟨hw, ⟨ha, he⟩, c, hc⟩ := hb
  have hu : Unserved s := ⟨ha, hx he⟩
  exact ⟨hw, hu, c, hl c hc hw hu⟩

theorem blocked_own {p : Server} {a : Act} (ha : isOwn a = true)
    (hg : NoCycle s (.own a)) (hp : s.p.step t a = some p) (hb : Blocked { s with p := p }) :
    Blocked s := by
  obtain ⟨-, -, hlike⟩ := own_frame ha hp
  refine blocked_of_p hb (fun h => (hlike .succ).executed ▸ h) fun d hd hw hu => ?_
  cases a with
  | receive c =>
    obtain ⟨r, -, rfl⟩ := step_receive.mp hp
    exact setPhase_writeLocked rfl hd
  | lock c =>
    obtain ⟨r, hr, -, rfl⟩ := step_lock.mp hp
    have hread := hg hw hu
    rw [hr] at hread
    exact setPhase_writeLocked (u := s.p) (c := c) (q := .locked r) hread hd
  | link c =>
    obtain ⟨r, -, -, -, rfl⟩ := step_link.mp hp
    exact setPhase_writeLocked (u := s.p) (c := c) (q := .linked r) rfl hd
  | alone c =>
    obtain ⟨r, -, -, rfl⟩ := step_alone.mp hp
    exact setPhase_writeLocked (u := s.p) (c := c) (q := .forwarded r (-2)) rfl hd
  | release c =>
    obtain ⟨r, m, -, rfl⟩ := step_release.mp hp
    exact setPhase_writeLocked (u := s.p) (c := c) (q := .released r m) rfl hd
  | reply c =>
    obtain ⟨r, m, -, rfl⟩ := step_reply.mp hp
    exact setPhase_writeLocked rfl hd
  | deliver | forward | back | invoke | take => simp [isOwn] at ha

/-- No step closes the cycle. -/
theorem blocked_step {l : Label} (h : Linked s) (hg : NoCycle s l)
    (hs : step t s l = some s') (hb : Blocked s') : Blocked s := by
  cases l with
  | send c r =>
    obtain ⟨p, hp, rfl⟩ := Option.map_eq_some_iff.mp hs
    obtain ⟨-, rfl⟩ := step_deliver.mp hp
    exact blocked_of_p hb (setPhase_unserved nofun) fun d hd _ _ => setPhase_writeLocked rfl hd
  | own a =>
    obtain ⟨ha, hs⟩ := Option.ite_none_right_eq_some.mp hs
    obtain ⟨p, hp, rfl⟩ := Option.map_eq_some_iff.mp hs
    exact blocked_own ha hg hp hb
  | invoke c =>
    obtain ⟨p, hp, rfl⟩ := Option.map_eq_some_iff.mp hs
    obtain ⟨r, rc, hc, rfl⟩ := step_invoke.mp hp
    refine blocked_of_p hb (setPhase_unserved (c := c) fun hcs => ?_)
      fun d hd _ _ => setPhase_writeLocked (u := s.p) (c := c) (q := .invoked r _) rfl hd
    subst hcs
    obtain ⟨hc, -⟩ | hc := hc <;> simp [hc, Phase.executed]
  | answer c =>
    obtain ⟨p, hp, rfl⟩ := Option.map_eq_some_iff.mp hs
    obtain ⟨r, m, -, rfl⟩ := step_take.mp hp
    exact blocked_of_p hb (setPhase_unserved nofun) fun d hd _ _ => setPhase_writeLocked rfl hd
  | forward c =>
    obtain ⟨r, hc, -, -, rfl⟩ := Joining.step_forward.mp hs
    refine blocked_of_p hb (setPhase_unserved (c := c) fun hcs => ?_)
      fun d hd _ _ => setPhase_writeLocked rfl hd
    subst hcs
    simp [hc, Phase.executed]
  | back c =>
    obtain ⟨r, q, m, hc, -, rfl⟩ := Joining.step_back.mp hs
    refine blocked_of_p hb (setPhase_unserved (c := c) fun hcs => ?_)
      fun d hd _ _ => setPhase_writeLocked (u := s.p) (c := c) (q := .forwarded r 0) rfl hd
    subst hcs
    simp [hc, Phase.executed]
  | nOwn a =>
    obtain ⟨-, hs⟩ := Option.ite_none_right_eq_some.mp hs
    obtain ⟨n, -, rfl⟩ := Option.map_eq_some_iff.mp hs
    exact hb
  | nInvoke c =>
    obtain ⟨n, -, rfl⟩ := Option.map_eq_some_iff.mp hs
    exact hb
  | main =>
    obtain ⟨hw, ⟨ha, he⟩, c, hc⟩ := hb
    obtain ⟨b, hb, rfl⟩ | ⟨hb, hi, rfl⟩ | ⟨m, rc, list, -, -, -, rfl⟩ := main_cases h hs
    · have hmove : answered s.boot = false := by
        cases hs : s.boot <;> simp [Boot.next, hs] at hb <;> simp [← hb, answered] at ha ⊢
      exact ⟨hw, ⟨hmove, he⟩, c, hc⟩
    · refine ⟨hw, ⟨by simp [hb, answered], by simp [hi, Phase.executed]⟩, c, ?_⟩
      exact setPhase_writeLocked rfl hc
    · by_cases hrc : rc = -1 <;> simp [hrc, answered] at ha
  | notify =>
    obtain ⟨-, hs⟩ := Option.ite_none_right_eq_some.mp hs
    obtain rfl := Option.some.inj hs
    exact absurd hb.1 (by simp)
  | watchUpdate =>
    obtain ⟨-, hs⟩ := Option.ite_none_right_eq_some.mp hs
    obtain rfl := Option.some.inj hs
    obtain ⟨-, hu, c, hc⟩ := hb
    have hholds : (s.p.phase c).holdsList = true := by
      cases hp : s.p.phase c <;> simp_all [writeLocked, Phase.holdsList]
    have hread := hg hu c ((h.pLocks.list c).mp hholds)
    exact absurd (hread.symm.trans hc) (by simp)
  | watchReady | watchLost =>
    obtain ⟨-, hs⟩ := Option.ite_none_right_eq_some.mp hs
    obtain rfl := Option.some.inj hs
    exact absurd hb.1 (by simp)

/-- The steps of threads that have something to do. New requests, answers read
by clients and the event from ZooKeeper do not count. -/
def counts : Label → Bool
  | .send _ _ | .own (.receive (.client _)) | .answer _ | .notify => false
  | _ => true

def Goes (s : State) : Prop := ∀ t, ∃ l : Label, counts l = true ∧ Enabled (step t) s l

def inHand : Phase → Bool
  | .idle | .sent _ | .replied _ _ => false
  | _ => true

/-- The new server goes on with a forwarded request, and the last one with its reply. -/
theorem goes_of_waiting (h : Linked s) {c : Conn} {r : Request} (hc : s.p.phase c = .waiting r) :
    Goes s := by
  intro t
  have hr := (h.link r).mpr ⟨c, hc⟩
  cases hq : s.n.phase .pred with
  | idle => simp [hq, Phase.request] at hr
  | sent q => exact ⟨.nOwn (.receive .pred), rfl, by simp [Enabled, step, isOwn, Server.step, hq]⟩
  | received q =>
    have hl := h.lock_free (by simp [hq, Phase.holdsList])
    exact ⟨.nOwn (.lock .pred), rfl, by simp [Enabled, step, isOwn, Server.step, hq, hl]⟩
  | locked q =>
    cases hw : needsForward q.msg with
    | false => exact ⟨.nInvoke .pred, rfl, by simp [Enabled, step, Server.step, hq, hw]⟩
    | true =>
      have hl := h.rls_free (by simp [hq, Phase.holdsRls])
      exact ⟨.nOwn (.link .pred), rfl, by simp [Enabled, step, isOwn, Server.step, hq, hw, hl]⟩
  | linked q =>
    exact ⟨.nOwn (.alone .pred), rfl,
      by simp [Enabled, step, isOwn, Server.step, hq, h.nNext]⟩
  | waiting q => exact absurd hq (h.nWaits .pred q)
  | forwarded q rc => exact ⟨.nInvoke .pred, rfl, by simp [Enabled, step, Server.step, hq]⟩
  | invoked q m =>
    exact ⟨.nOwn (.release .pred), rfl, by simp [Enabled, step, isOwn, Server.step, hq]⟩
  | released q m =>
    exact ⟨.nOwn (.reply .pred), rfl, by simp [Enabled, step, isOwn, Server.step, hq]⟩
  | replied q m => exact ⟨.back c, rfl, by simp [Enabled, step, Server.step, hq, hc]⟩

theorem goes_of_served (h : Linked s) {c : Conn} {r : Request} (hw : s.watch = .updating)
    (hs : ¬ Unserved s) (hc : s.p.phase c = .locked r) : Goes s := by
  intro t
  cases ha : answered s.boot with
  | true =>
    cases hb : s.boot with
    | fetched => exact ⟨.main, rfl, by simp [Enabled, step, mainStep, hb, Boot.next]⟩
    | accepting => exact ⟨.watchReady, rfl, by simp [Enabled, step, hw, hb]⟩
    | failed => exact ⟨.watchLost, rfl, by simp [Enabled, step, hw, hb]⟩
    | _ => simp [hb, answered] at ha
  | false =>
    cases hp : s.p.phase .succ with
    | invoked q m =>
      obtain rfl : c = .succ :=
        h.unique (by simp [hc, Phase.holdsList]) (by simp [hp, Phase.holdsList])
      rw [hc] at hp
      cases hp
    | released q m =>
      exact ⟨.own (.reply .succ), rfl, by simp [Enabled, step, isOwn, Server.step, hp]⟩
    | replied q m =>
      have hb : s.boot = .requested := by
        by_contra hb
        have hsucc := h.succ
        simp [hp, hb, Phase.request] at hsucc
      exact ⟨.main, rfl, by simp [Enabled, step, mainStep, Server.step, hb, hp]⟩
    | _ => exact absurd ⟨ha, by simp [hp, Phase.executed]⟩ hs

/-- The thread that holds `lock_list` goes on, or somebody for whom it waits. -/
theorem goes_of_holds (h : Linked s) (hb : ¬ Blocked s) {c : Conn}
    (hc : (s.p.phase c).holdsList = true) : Goes s := by
  intro t
  cases hp : s.p.phase c with
  | locked r =>
    cases hw : needsForward r.msg with
    | false => exact ⟨.invoke c, rfl, by simp [Enabled, step, Server.step, hp, hw]⟩
    | true =>
      cases hl : s.p.rlsLock with
      | none =>
        exact ⟨.own (.link c), rfl, by simp [Enabled, step, isOwn, Server.step, hp, hw, hl]⟩
      | some d =>
        cases d with
        | watcher =>
          have hup := h.rls.mp hl
          have hserved : ¬ Unserved s := fun hu =>
            hb ⟨hup, hu, c, by simpa [hp, writeLocked] using hw⟩
          exact goes_of_served h hup hserved hp t
        | thread d =>
          have hd := (h.pLocks.rls d).mpr hl
          have hdl : (s.p.phase d).holdsList = true := by
            cases hq : s.p.phase d <;> simp_all [Phase.holdsRls, Phase.holdsList]
          obtain rfl : c = d := h.unique hc hdl
          simp [hp, Phase.holdsRls] at hd
  | linked r =>
    cases hn : s.p.next with
    | false => exact ⟨.own (.alone c), rfl, by simp [Enabled, step, isOwn, Server.step, hp, hn]⟩
    | true =>
      have hi : s.n.phase .pred = .idle := by
        by_contra hi
        obtain ⟨q, hq⟩ := Option.ne_none_iff_exists'.mp (mt request_eq_none.mp hi)
        obtain ⟨d, hd⟩ := (h.link q).mp hq
        obtain rfl : c = d := h.unique hc (by simp [hd, Phase.holdsList])
        rw [hp] at hd
        cases hd
      exact ⟨.forward c, rfl, by simp [Enabled, step, Server.step, hp, hn, hi]⟩
  | waiting r => exact goes_of_waiting h hp t
  | forwarded r rc => exact ⟨.invoke c, rfl, by simp [Enabled, step, Server.step, hp]⟩
  | invoked r m =>
    exact ⟨.own (.release c), rfl, by simp [Enabled, step, isOwn, Server.step, hp]⟩
  | _ => simp [hp, Phase.holdsList] at hc

theorem goes_of_inHand (h : Linked s) (hb : ¬ Blocked s) {c : Conn}
    (hc : inHand (s.p.phase c) = true) : Goes s := by
  cases hl : s.p.lockList with
  | some d => exact goes_of_holds h hb ((h.pLocks.list d).mpr hl)
  | none =>
    intro t
    cases hp : s.p.phase c with
    | received r =>
      exact ⟨.own (.lock c), rfl, by simp [Enabled, step, isOwn, Server.step, hp, hl]⟩
    | released r m =>
      exact ⟨.own (.reply c), rfl, by simp [Enabled, step, isOwn, Server.step, hp]⟩
    | idle | sent | replied => simp [hp, inHand] at hc
    | _ =>
      have hlock := (h.pLocks.list c).mp (by simp [hp, Phase.holdsList])
      rw [hl] at hlock
      cases hlock

theorem goes_of_boot (h : Linked s) (hb : ¬ Blocked s) (ha : s.boot ≠ .accepting)
    (hf : s.boot ≠ .failed) : Goes s := by
  have hsucc := h.succ
  cases hboot : s.boot with
  | connected =>
    have hi : s.p.phase .succ = .idle := by simpa [hboot, request_eq_none] using hsucc
    exact fun t => ⟨.main, rfl, by simp [Enabled, step, mainStep, Server.step, hboot, hi]⟩
  | requested =>
    cases hp : s.p.phase .succ with
    | idle => simp [hboot, hp, Phase.request] at hsucc
    | sent r =>
      exact fun t => ⟨.own (.receive .succ), rfl, by simp [Enabled, step, isOwn, Server.step, hp]⟩
    | replied r m =>
      exact fun t => ⟨.main, rfl, by simp [Enabled, step, mainStep, Server.step, hboot, hp]⟩
    | _ => exact goes_of_inHand h hb (c := .succ) (by simp [hp, inHand])
  | accepting => exact absurd hboot ha
  | failed => exact absurd hboot hf
  | _ => exact fun t => ⟨.main, rfl, by simp [Enabled, step, mainStep, hboot, Boot.next]⟩

/-- As long as no step closes the cycle, a request in the hands of the last
server and the start of the new one always go on. -/
theorem join_not_stuck (list : ListT) (ls : List (AnoAtual × Label)) (s : State)
    (hcycle : Meets timedStep (fun s l => NoCycle s l.2) (.start list) ls)
    (hrun : run timedStep (.start list) ls = some s)
    (hwork : (∃ c, inHand (s.p.phase c) = true) ∨ s.boot ≠ .accepting ∧ s.boot ≠ .failed)
    (t : AnoAtual) : ∃ l, counts l = true ∧ Enabled (step t) s l := by
  have hstart : ¬ Blocked (.start list) := fun hb => nomatch hb.1
  have h := run_invariant timedStep (I := fun s => Linked s ∧ ¬ Blocked s)
    (fun _ _ _ hI hg hs => ⟨linked_step hI.1 hs, mt (blocked_step hI.1 hg hs) hI.2⟩)
    ⟨linked_start list, hstart⟩ hcycle hrun
  obtain ⟨c, hc⟩ | ⟨ha, hf⟩ := hwork
  · exact goes_of_inHand h.1 h.2 hc t
  · exact goes_of_boot h.1 h.2 ha hf t

/-- A write that waits for the watcher's update, which waits for the new server
to accept, which has sent its list request. -/
def writeFirst : List Label :=
  startSteps ++ [.main, .notify, .watchUpdate, .own (.receive .succ),
    .send 0 ⟨1, toyotaRequest 2020⟩, .own (.receive (.client 0)), .own (.lock (.client 0))]

/-- The same threads, where the list request gets `lock_list` before the write. -/
def listFirst : List Label :=
  startSteps ++ [.main, .notify, .watchUpdate, .own (.receive .succ),
    .send 0 ⟨1, toyotaRequest 2020⟩, .own (.receive (.client 0)), .own (.lock .succ),
    .invoke .succ, .own (.release .succ), .own (.lock (.client 0))]

theorem join_not_stuck_listFirst :
    ∃ s, run timedStep (.start listCreate) (listFirst.map (.same 2026, ·)) = some s ∧
      s.watch = .updating ∧ s.boot = .requested ∧
      s.p.phase (.client 0) = .locked ⟨1, toyotaRequest 2020⟩ ∧
      ∃ l, counts l = true ∧ Enabled (step (.same 2026)) s l := by
  obtain ⟨s, hs, hp⟩ := Option.map_eq_some_iff.mp (show (run timedStep (.start listCreate)
    (listFirst.map (.same 2026, ·))).map (fun s => (s.watch, s.boot, s.p.phase (.client 0))) =
      some (.updating, .requested, .locked ⟨1, toyotaRequest 2020⟩) by decide)
  simp only [Prod.mk.injEq] at hp
  obtain ⟨hwatch, hboot, hphase⟩ := hp
  exact ⟨s, hs, hwatch, hboot, hphase, join_not_stuck listCreate _ s (by decide) hs
    (.inl ⟨.client 0, by rw [hphase]; rfl⟩) (.same 2026)⟩

theorem join_stuck :
    ∃ s, run timedStep (.start listCreate) (writeFirst.map (.same 2026, ·)) = some s ∧
      inHand (s.p.phase (.client 0)) = true ∧ s.boot ≠ .accepting ∧ s.boot ≠ .failed ∧
      ∀ t, ¬ ∃ l, counts l = true ∧ Enabled (step t) s l := by
  obtain ⟨s, hs, hn, hboot, hwatch, hlist, hrls, hnext, hpred, hsucc, hc, hother⟩ :
      ∃ s, run timedStep (.start listCreate) (writeFirst.map (.same 2026, ·)) = some s ∧
        s.n = Server.start listCreate false ∧ s.boot = .requested ∧ s.watch = .updating ∧
        s.p.lockList = some (.client 0) ∧ s.p.rlsLock = some .watcher ∧ s.p.next = false ∧
        s.p.phase .pred = .idle ∧ s.p.phase .succ = .received listRequest ∧
        s.p.phase (.client 0) = .locked ⟨1, toyotaRequest 2020⟩ ∧
        ∀ c, s.p.phase (.client (c + 1)) = .idle :=
    ⟨_, rfl, rfl, rfl, rfl, rfl, rfl, rfl, rfl, rfl, rfl, fun _ => rfl⟩
  have hw : needsForward (toyotaRequest 2020) = true := rfl
  refine ⟨s, hs, by simp [hc, inHand], by simp [hboot], by simp [hboot], fun t => ?_⟩
  rintro ⟨l, hl, u, hu⟩
  cases l with
  | send | answer | notify => cases hl
  | main => simp [step, mainStep, hboot, hsucc] at hu
  | watchUpdate => simp [step, hwatch] at hu
  | watchReady => simp [step, hboot] at hu
  | watchLost => simp [step, hboot] at hu
  | back c => simp [step, hn, Server.start] at hu
  | nInvoke c => simp [step, hn, Server.step, Server.start] at hu
  | nOwn a => cases a <;> simp [step, hn, Server.step, Server.start, isOwn] at hu
  | invoke c | forward c =>
    obtain _ | _ | _ | c := c <;> simp [step, Server.step, hpred, hsucc, hc, hw, hother] at hu
  | own a =>
    cases a with
    | receive c | lock c | link c | alone c | release c | reply c =>
      obtain _ | _ | _ | c := c <;>
        simp [step, Server.step, isOwn, hpred, hsucc, hc, hlist, hrls, hnext, hother] at hu
    | _ => simp [step, isOwn] at hu

end ListServer.JoinProgress
