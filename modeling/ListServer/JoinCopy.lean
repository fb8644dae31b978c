import ListServer.ClientStub
import ListServer.Joining

namespace ListServer.JoinCopy

open Lib.Transition CarList Message Skeleton ClientThread ChainControl ListTransfer Joining
open ClientStub (toyotaRequest)
open ChainSystem (isOwn)

variable {t : AnoAtual} {s s' : State}

/-- A write that only returns an error: an addition whose car is refused, a
removal of a model that is not in the list, and anything else. -/
def NoEffect (t : AnoAtual) (msg : MessageT) (list : ListT) : Prop :=
  (msg.opcode = opAdd → accepted t msg = none) ∧
    (msg.opcode = opDel → ∀ m ∈ target msg, firstOf m list = none)

instance (t : AnoAtual) (msg : MessageT) (list : ListT) : Decidable (NoEffect t msg list) :=
  inferInstanceAs (Decidable (_ ∧ _))

/-- Clients send writes, and what the last server executes alone after it has
served the list request has no effect. -/
def NothingMissed (t : AnoAtual) (s : State) : Label → Prop
  | .send _ r => needsForward r.msg = true
  | .invoke c => ∀ r, s.p.phase c = .forwarded r (-2) → ¬ Unserved s → NoEffect t r.msg s.p.list
  | _ => True

instance (t : AnoAtual) (s : State) : DecidablePred (NothingMissed t s)
  | .send _ r => inferInstanceAs (Decidable (needsForward r.msg = true))
  | .invoke c =>
    match h : s.p.phase c with
    | .forwarded r rc => decidable_of_iff
        (rc = -2 → ¬ Unserved s → NoEffect t r.msg s.p.list)
        (by simp only [NothingMissed, h, Phase.forwarded.injEq]; grind)
    | .idle | .sent _ | .received _ | .locked _ | .linked _ | .waiting _ | .invoked _ _
    | .released _ _ | .replied _ _ => isTrue (by simp [NothingMissed, h])
  | .own _ | .answer _ | .forward _ | .back _ | .nOwn _ | .nInvoke _ | .main
  | .notify | .watchUpdate | .watchReady | .watchLost => isTrue trivial

theorem after_of_noEffect {msg : MessageT} {list : ListT}
    (hw : needsForward msg = true) (h : NoEffect t msg list) : after t msg list = list := by
  by_cases ha : msg.opcode = opAdd
  · rw [after_add ha, h.1 ha]
  by_cases hd : msg.opcode = opDel
  · rw [after_del hd]
    cases ht : target msg with
    | none => rfl
    | some m =>
      dsimp only
      rw [remove_none (h.2 hd m ht)]
  · have ho : msg.opcode = opOrder := by simpa [needsForward, ha, hd] using hw
    have hne : opOrder ≠ opGetListByYear := by decide
    rw [after_read ha hd, ho, if_neg fun hy => hne hy.1]

def Ahead (s : State) (r : Request) : Prop :=
  (∃ m, (s.n.phase .pred).executed = some (r, m)) ∨ ∃ c, s.p.phase c = .forwarded r 0

def loaded : Boot → Bool
  | .fetched | .accepting => true
  | _ => false

theorem answered_of_loaded {b : Boot} (h : loaded b = true) : answered b = true := by
  cases b <;> simp_all [loaded, answered]

/-- What the new server has of the last one's cars: nothing, then the reply to
the list request on its way, then the cars, up to the write in between. -/
structure Copied (t : AnoAtual) (s : State) : Prop where
  writes : ∀ c r, c ≠ .succ → (s.p.phase c).request = some r → needsForward r.msg = true
  code : ∀ c r rc, s.p.phase c = .forwarded r rc → rc = -2 ∨ rc = 0 ∧ s.boot = .accepting
  nCode : ∀ c r rc, s.n.phase c = .forwarded r rc → rc = -2
  empty : answered s.boot = false → s.n.list = listCreate
  loads : ∀ r m, (s.p.phase .succ).executed = some (r, m) → ∀ rc list, rc ≠ -1 →
    rlistGetListAdd t (some m) listCreate = (rc, list) → list.head = s.p.list.head
  ahead : loaded s.boot = true → ∀ r, Ahead s r → (after t r.msg s.p.list).head = s.n.list.head
  level : loaded s.boot = true → (∀ r, ¬ Ahead s r) → s.p.list.head = s.n.list.head

theorem copied_start (t : AnoAtual) (list : ListT) : Copied t (.start list) where
  writes _ _ _ hr := nomatch hr
  code _ _ _ hc := nomatch hc
  nCode _ _ _ hc := nomatch hc
  empty _ := rfl
  loads _ _ hm := nomatch hm
  ahead hb := nomatch hb
  level hb := nomatch hb

theorem ahead_congr {p n : Server} (hx : (n.phase .pred).executed = (s.n.phase .pred).executed)
    (ho : ∀ c r, p.phase c = .forwarded r 0 ↔ s.p.phase c = .forwarded r 0) (r : Request) :
    Ahead { s with p := p, n := n } r ↔ Ahead s r := by
  simp only [Ahead, hx, ho]

theorem copied_frame {p n : Server} (h : Copied t s) (hp : p.list = s.p.list)
    (hn : n.list = s.n.list)
    (hx : (p.phase .succ).executed = (s.p.phase .succ).executed)
    (ha : ∀ r, Ahead { s with p := p, n := n } r ↔ Ahead s r)
    (hw : ∀ c r, c ≠ .succ → (p.phase c).request = some r → needsForward r.msg = true)
    (hc : ∀ c r rc, p.phase c = .forwarded r rc → rc = -2 ∨ rc = 0 ∧ s.boot = .accepting)
    (hnc : ∀ c r rc, n.phase c = .forwarded r rc → rc = -2) :
    Copied t { s with p := p, n := n } where
  writes := hw
  code := hc
  nCode := hnc
  empty hb := hn.trans (h.empty hb)
  loads r m hm rc list hrc hl := (h.loads r m (hx ▸ hm) rc list hrc hl).trans (congrArg _ hp.symm)
  ahead hb r hr := by
    rw [hp, hn]
    exact h.ahead hb r ((ha r).mp hr)
  level hb hno := by
    rw [hp, hn]
    exact h.level hb fun r hr => hno r ((ha r).mpr hr)

theorem copied_own {p : Server} {a : Act} (h : Copied t s) (ha : isOwn a = true)
    (hp : s.p.step t a = some p) : Copied t { s with p := p } := by
  obtain ⟨hlist, -, hlike⟩ := own_frame ha hp
  refine copied_frame h hlist rfl (hlike .succ).executed (ahead_congr rfl fun c => (hlike c).ok)
    (fun c r hc hr => h.writes c r hc ((hlike c).request ▸ hr)) (fun c r rc hc => ?_) h.nCode
  obtain hc | ⟨rfl, -⟩ := own_code ha hp hc
  · exact h.code c r rc hc
  · exact .inl rfl

theorem copied_nOwn {n : Server} {a : Act} (h : Copied t s) (ha : isOwn a = true)
    (hn : s.n.step t a = some n) : Copied t { s with n := n } := by
  obtain ⟨hlist, -, hlike⟩ := own_frame ha hn
  refine copied_frame h rfl hlist rfl (ahead_congr (hlike .pred).executed fun _ _ => Iff.rfl)
    h.writes h.code fun c r rc hc => ?_
  obtain hc | ⟨rfl, -⟩ := own_code ha hn hc
  · exact h.nCode c r rc hc
  · rfl

theorem copied_client {c : Nat} {q : Phase} (h : Copied t s)
    (hold : ∀ r, s.p.phase (.client c) ≠ .forwarded r 0) (hnew : ∀ r rc, q ≠ .forwarded r rc)
    (hw : ∀ r, q.request = some r → needsForward r.msg = true) :
    Copied t { s with p := s.p.setPhase (.client c) q } := by
  refine copied_frame h rfl rfl (by simp) (ahead_congr rfl fun d r => ?_) (fun d r hd hr => ?_)
    (fun d r rc hd => h.code d r rc (setPhase_other hd (hnew r rc)).2) h.nCode
  · by_cases hd : d = .client c
    · subst hd
      simp [hold, hnew]
    · simp [hd]
  · by_cases hdc : d = .client c
    · subst hdc
      exact hw r (by simpa using hr)
    · exact h.writes d r hd (by simpa [hdc] using hr)

theorem copied_forward {c : Conn} (h : Copied t s)
    (hs : step t s (.forward c) = some s') : Copied t s' := by
  obtain ⟨r, hc, -, hi, rfl⟩ := Joining.step_forward.mp hs
  have hrequest := setPhase_congr Phase.request (s := s.p) (c := c) (p := .waiting r)
    (by simp [hc, Phase.request])
  have hexecuted := setPhase_congr Phase.executed (s := s.p) (c := c) (p := .waiting r)
    (by simp [hc, Phase.executed])
  refine copied_frame h rfl rfl (hexecuted .succ)
    (ahead_congr (by simp [hi, Phase.executed]) fun d q => ?_)
    (fun d q hd hq => h.writes d q hd (hrequest d ▸ hq))
    (fun d q rc hd => h.code d q rc (setPhase_other hd (by simp)).2)
    (fun d q rc hd => h.nCode d q rc (setPhase_other hd (by simp)).2)
  by_cases hd : d = c
  · subst hd
    simp [hc]
  · simp [hd]

/-- While one thread of the last server holds `lock_list`, no other one's
forward is over. -/
theorem not_forwarded (hl : Linked s) {c : Conn} (hc : (s.p.phase c).holdsList = true)
    {d : Conn} (hd : d ≠ c) (r : Request) (rc : Int) : s.p.phase d ≠ .forwarded r rc := fun he =>
  hd (hl.unique (by simp [he, Phase.holdsList]) hc)

/-- What the new server executes, the thread that holds `lock_list` waits for. -/
theorem waiting_of_request (hl : Linked s) {c : Conn} {r : Request}
    (hc : (s.p.phase c).holdsList = true) (hr : (s.n.phase .pred).request = some r) :
    s.p.phase c = .waiting r := by
  obtain ⟨d, hd⟩ := (hl.link r).mp hr
  obtain rfl : c = d := hl.unique hc (by simp [hd, Phase.holdsList])
  exact hd

theorem copied_back {c : Conn} (hl : Linked s) (h : Copied t s)
    (hs : step t s (.back c) = some s') : Copied t s' := by
  obtain ⟨r, q, m, hc, hq, rfl⟩ := Joining.step_back.mp hs
  have hholds : (s.p.phase c).holdsList = true := by simp [hc, Phase.holdsList]
  have hacc : s.boot = .accepting := (hl.next (hl.waits c r hc)).2
  obtain rfl : r = q := by
    have hw := waiting_of_request hl hholds (r := q) (by simp [hq, Phase.request])
    simpa using hc.symm.trans hw
  have hrequest := setPhase_congr Phase.request (s := s.p) (c := c) (p := .forwarded r 0)
    (by simp [hc, Phase.request])
  have hexecuted := setPhase_congr Phase.executed (s := s.p) (c := c) (p := .forwarded r 0)
    (by simp [hc, Phase.executed])
  refine copied_frame h rfl rfl (hexecuted .succ) (fun k => ?_)
    (fun d k hd hk => h.writes d k hd (hrequest d ▸ hk)) (fun d k rc hd => ?_)
    (fun d k rc hd => h.nCode d k rc (setPhase_other hd (by simp)).2)
  · -- the reply that was on its way is now the result of the forward
    constructor
    · rintro (⟨m', hm'⟩ | ⟨d, hd⟩)
      · simp [Phase.executed] at hm'
      · by_cases hdc : d = c
        · subst hdc
          obtain rfl : r = k := by simpa using hd
          exact .inl ⟨m, by simp [hq, Phase.executed]⟩
        · exact absurd (by simpa [hdc] using hd) (not_forwarded hl hholds hdc k 0)
    · rintro (⟨m', hm'⟩ | ⟨d, hd⟩)
      · obtain ⟨rfl, -⟩ : r = k ∧ m = m' := by simpa [hq, Phase.executed] using hm'
        exact .inr ⟨c, by simp⟩
      · obtain rfl : c = d := hl.unique hholds (by simp [hd, Phase.holdsList])
        rw [hc] at hd
        cases hd
  · by_cases hdc : d = c
    · subst hdc
      obtain ⟨-, rfl⟩ : r = k ∧ 0 = rc := by simpa using hd
      exact .inr ⟨rfl, hacc⟩
    · exact h.code d k rc (by simpa [hdc] using hd)

theorem afterForward_code {rc : Int} (h : rc = -2 ∨ rc = 0) (t : AnoAtual) (msg : MessageT)
    (list : ListT) : afterForward t rc msg list = serve t msg list := by
  obtain rfl | rfl := h
  · exact afterForward_alone t msg list
  · exact afterForward_zero t msg list

theorem copied_list (hl : Linked s) (h : Copied t s) {r : Request}
    (hc : s.p.phase .succ = .locked r) :
    Copied t { s with p := {
      s.p.setPhase .succ (.invoked r (serve t r.msg s.p.list).1) with
      list := after t r.msg s.p.list } } := by
  obtain ⟨hb, rfl⟩ : s.boot = .requested ∧ r = listRequest := by
    have hsucc := hl.succ
    rw [hc] at hsucc
    by_cases hb : s.boot = .requested
    · exact ⟨hb, by simpa [hb, Phase.request] using hsucc⟩
    · simp [hb, Phase.request] at hsucc
  exact { h with
    writes := fun d q hd hq => h.writes d q hd (by simpa [hd] using hq)
    code := fun d q rc hd => h.code d q rc (setPhase_other hd (by simp)).2
    loads := fun q m hm rc list hrc hload => by
      obtain ⟨-, rfl⟩ : listRequest = q ∧ (serve t listRequest.msg s.p.list).1 = m := by
        simpa [Phase.executed] using hm
      exact load_head hrc hload
    ahead := fun ha => by simp [hb, loaded] at ha
    level := fun ha => by simp [hb, loaded] at ha }

/-- The last server executes a write. What it executes after a forward, the new
server has executed on the same cars. -/
theorem copied_write (hl : Linked s) (h : Copied t s) {c : Conn} {r : Request} {rc : Int}
    (hc : s.p.phase c = .forwarded r rc)
    (hg : rc = -2 → ¬ Unserved s → NoEffect t r.msg s.p.list) (m : MessageT) :
    Copied t { s with p := { s.p.setPhase c (.invoked r m) with
      list := after t r.msg s.p.list } } := by
  have hholds : (s.p.phase c).holdsList = true := by simp [hc, Phase.holdsList]
  have hne : Conn.succ ≠ c := (hl.not_succ (c := c) (r := r) (by simp [hc, Phase.forwards])).symm
  have hw : needsForward r.msg = true := hl.pLocks.writes c r (by simp [hc, Phase.forwards])
  have hexec : ∀ q m, (s.n.phase .pred).executed ≠ some (q, m) := fun q m hm => by
    have hwait := waiting_of_request hl hholds (executed_request hm)
    rw [hc] at hwait
    cases hwait
  have hsame : rc = -2 → ¬ Unserved s → after t r.msg s.p.list = s.p.list :=
    fun hrc hs => after_of_noEffect hw (hg hrc hs)
  exact { h with
    writes := fun d q hd hq => by
      by_cases hdc : d = c
      · subst hdc
        obtain rfl : r = q := by simpa [Phase.request] using hq
        exact hw
      · exact h.writes d q hd (by simpa [hdc] using hq)
    code := fun d q k hd => h.code d q k (setPhase_other hd (by simp)).2
    loads := fun q k hk code list hcode hload => by
      have hk : (s.p.phase .succ).executed = some (q, k) := by simpa [hne] using hk
      obtain hrc | ⟨-, hacc⟩ := h.code c r rc hc
      · have hserved : ¬ Unserved s := fun hu => by simp [hu.2] at hk
        exact (h.loads q k hk code list hcode hload).trans (by rw [hsame hrc hserved])
      · have hsucc := (executed_request hk).symm.trans hl.succ
        simp [hacc] at hsucc
    ahead := fun _ q hq => by
      obtain ⟨k, hk⟩ | ⟨d, hd⟩ := hq
      · exact absurd hk (hexec q k)
      · obtain ⟨hdc, hd⟩ := setPhase_other hd (by simp)
        exact absurd hd (not_forwarded hl hholds hdc q 0)
    level := fun ha _ => by
      obtain hrc | ⟨rfl, -⟩ := h.code c r rc hc
      · have hserved : ¬ Unserved s := fun hu => by
          have hans := hu.1
          simp [answered_of_loaded ha] at hans
        rw [hsame hrc hserved]
        refine h.level ha fun q hq => ?_
        obtain ⟨k, hk⟩ | ⟨d, hd⟩ := hq
        · exact hexec q k hk
        · obtain rfl : c = d := hl.unique hholds (by simp [hd, Phase.holdsList])
          simp [hc, hrc] at hd
      · exact h.ahead ha r (.inr ⟨c, hc⟩) }

theorem copied_invoke {p : Server} {c : Conn} (hl : Linked s) (h : Copied t s)
    (hg : NothingMissed t s (.invoke c)) (hp : s.p.step t (.invoke c) = some p) :
    Copied t { s with p := p } := by
  obtain ⟨r, rc, ⟨hc, hr, rfl⟩ | hc, rfl⟩ := step_invoke.mp hp
  · obtain rfl : c = .succ := by
      by_contra hne
      have hw := h.writes c r hne (by simp [hc, Phase.request])
      rw [hr] at hw
      cases hw
    exact copied_list hl h hc
  · have hcode : rc = -2 ∨ rc = 0 := (h.code c r rc hc).imp_right And.left
    rw [afterForward_code hcode]
    exact copied_write hl h hc (fun hrc => hg r (hrc ▸ hc)) _

/-- The new server executes a forwarded write on the list that the last one
has, before the last one does. -/
theorem copied_nInvoke {n : Server} {c : Conn} (hl : Linked s) (h : Copied t s)
    (hn : s.n.step t (.invoke c) = some n) : Copied t { s with n := n } := by
  obtain ⟨r, rc, hc, rfl⟩ := step_invoke.mp hn
  obtain ⟨rfl, hacc, d, hd⟩ := hl.executes (invoke_place hc).1
  have hw : needsForward r.msg = true := hl.pLocks.writes d r (by simp [hd, Phase.forwards])
  obtain ⟨-, hr, -⟩ | hc := hc
  · rw [hr] at hw
    cases hw
  obtain rfl := h.nCode .pred r rc hc
  rw [afterForward_alone]
  have hholds : (s.p.phase d).holdsList = true := by simp [hd, Phase.holdsList]
  have hnone : ∀ q e, s.p.phase e ≠ .forwarded q 0 := fun q e he => by
    obtain rfl : d = e := hl.unique hholds (by simp [he, Phase.holdsList])
    rw [hd] at he
    cases he
  have hload : loaded s.boot = true := by rw [hacc]; rfl
  have hlevel : s.p.list.head = s.n.list.head := h.level hload fun q hq => by
    obtain ⟨k, hk⟩ | ⟨e, he⟩ := hq
    · simp [hc, Phase.executed] at hk
    · exact hnone q e he
  exact { h with
    nCode := fun e q k he => h.nCode e q k (setPhase_other he (by simp)).2
    empty := fun ha => by simp [answered_of_loaded hload] at ha
    ahead := fun _ q hq => by
      obtain ⟨k, hk⟩ | ⟨e, he⟩ := hq
      · obtain ⟨rfl, -⟩ : r = q ∧ (serve t r.msg s.n.list).1 = k := by
          simpa [Phase.executed] using hk
        exact head_after_congr r.msg t hlevel
      · exact absurd he (hnone q e)
    level := fun _ hno => absurd
      (.inl ⟨(serve t r.msg s.n.list).1, by simp [Phase.executed]⟩) (hno r) }

theorem not_ahead (hl : Linked s) (h : Copied t s) (hb : s.boot ≠ .accepting) (r : Request) :
    ¬ Ahead s r := by
  rintro (⟨m, hm⟩ | ⟨c, hc⟩)
  · exact hb (hl.executes (executed_request hm)).2.1
  · obtain hrc | ⟨-, hacc⟩ := h.code c r 0 hc
    · cases hrc
    · exact hb hacc

theorem copied_main (hl : Linked s) (h : Copied t s) (hs : mainStep t s = some s') :
    Copied t s' := by
  obtain ⟨b, hb, rfl⟩ | ⟨hb, hi, rfl⟩ | ⟨m, rc, list, hb, hr, hload, rfl⟩ := main_cases hl hs
  · have hmove : s.boot ≠ .accepting ∧ answered b = answered s.boot ∧ loaded b = loaded s.boot := by
      cases hs : s.boot <;> simp [Boot.next, hs] at hb <;> subst hb <;> decide
    obtain ⟨hacc, hans, hload⟩ := hmove
    exact { h with
      code := fun c r rc hc => (h.code c r rc hc).imp_right fun hrc => absurd hrc.2 hacc
      empty := fun ha => h.empty (hans ▸ ha)
      ahead := fun ha => h.ahead (hload ▸ ha)
      level := fun ha => h.level (hload ▸ ha) }
  · exact { h with
      writes := fun c r hc hr => h.writes c r hc (by simpa [hc] using hr)
      code := fun c r rc hc => by
        have hc := h.code c r rc (setPhase_other hc (by simp)).2
        simpa [hb] using hc
      empty := fun _ => h.empty (by simp [hb, answered])
      loads := by simp [Phase.executed]
      ahead := fun ha => by simp [loaded] at ha
      level := fun ha => by simp [loaded] at ha }
  · have hn : s.n.list = listCreate := h.empty (by simp [hb, answered])
    have hno := not_ahead hl h (by simp [hb])
    have hans : answered (if rc = -1 then Boot.failed else .fetched) = true := by
      split <;> rfl
    exact { h with
      writes := fun c r hc hr => h.writes c r hc (by simpa [hc] using hr)
      code := fun c r k hc => by
        have hc := h.code c r k (setPhase_other hc (by simp)).2
        exact hc.imp_right fun hk => absurd hk.2 (by simp [hb])
      empty := fun ha => by simp [hans] at ha
      loads := by simp [Phase.executed]
      ahead := fun _ r hr => by
        obtain hm | ⟨c, hc⟩ := hr
        · exact absurd (.inl hm) (hno r)
        · exact absurd (.inr ⟨c, (setPhase_other hc (by simp)).2⟩) (hno r)
      level := fun ha _ => by
        have hrc : rc ≠ -1 := fun hrc => by simp [hrc, loaded] at ha
        rw [hn] at hload
        exact (h.loads listRequest m (by simp [hr, Phase.executed]) rc list hrc hload).symm }

theorem copied_step {l : Label} (hl : Linked s) (h : Copied t s) (hg : NothingMissed t s l)
    (hs : step t s l = some s') : Copied t s' := by
  cases l with
  | send c r =>
    obtain ⟨p, hp, rfl⟩ := Option.map_eq_some_iff.mp hs
    obtain ⟨hi, rfl⟩ := step_deliver.mp hp
    refine copied_client h (by simp [hi]) (by simp) fun q hq => ?_
    obtain rfl : r = q := Option.some.inj hq
    exact hg
  | own a =>
    obtain ⟨ha, hs⟩ := Option.ite_none_right_eq_some.mp hs
    obtain ⟨p, hp, rfl⟩ := Option.map_eq_some_iff.mp hs
    exact copied_own h ha hp
  | invoke c =>
    obtain ⟨p, hp, rfl⟩ := Option.map_eq_some_iff.mp hs
    exact copied_invoke hl h hg hp
  | answer c =>
    obtain ⟨p, hp, rfl⟩ := Option.map_eq_some_iff.mp hs
    obtain ⟨r, m, hr, rfl⟩ := step_take.mp hp
    exact copied_client h (by simp [hr]) (by simp) nofun
  | forward c => exact copied_forward h hs
  | back c => exact copied_back hl h hs
  | nOwn a =>
    obtain ⟨ha, hs⟩ := Option.ite_none_right_eq_some.mp hs
    obtain ⟨n, hn, rfl⟩ := Option.map_eq_some_iff.mp hs
    exact copied_nOwn h ha hn
  | nInvoke c =>
    obtain ⟨n, hn, rfl⟩ := Option.map_eq_some_iff.mp hs
    exact copied_nInvoke hl h hn
  | main => exact copied_main hl h hs
  | notify | watchUpdate | watchReady | watchLost =>
    obtain ⟨-, hs⟩ := Option.ite_none_right_eq_some.mp hs
    obtain rfl := Option.some.inj hs
    exact ⟨h.writes, h.code, h.nCode, h.empty, h.loads, h.ahead, h.level⟩

def Quiet (s : State) : Prop := ∀ c r, (s.p.phase c).forwards ≠ some r

theorem Copied.cars_eq (hl : Linked s) (h : Copied t s) (hb : s.boot = .accepting)
    (hq : Quiet s) : cars s.n.list = cars s.p.list := by
  refine congrArg Multiset.ofList (h.level (by simp [hb, loaded]) fun r hr => ?_).symm
  obtain ⟨m, hm⟩ | ⟨c, hc⟩ := hr
  · obtain ⟨-, -, d, hd⟩ := hl.executes (executed_request hm)
    exact hq d r (by simp [hd, Phase.forwards])
  · exact hq c r (by simp [hc, Phase.forwards])

/-- If nothing is executed alone after the list request has been served, the new
server accepts with the cars of the last one and keeps them. -/
theorem join_same_cars (ano : Int) (list : ListT) (ls : List Label) (s : State)
    (hmissed : Meets (step (.same ano)) (NothingMissed (.same ano)) (.start list) ls)
    (hrun : run (step (.same ano)) (.start list) ls = some s) (hb : s.boot = .accepting)
    (hq : Quiet s) : cars s.n.list = cars s.p.list := by
  have h := run_invariant (step (.same ano)) (I := fun s => Linked s ∧ Copied (.same ano) s)
    (fun _ _ _ hI hg hs => ⟨linked_step hI.1 hs, copied_step hI.1 hI.2 hg hs⟩)
    ⟨linked_start list, copied_start (.same ano) list⟩ hmissed hrun
  exact h.2.cars_eq h.1 hb hq

theorem quiet_of_run {list : ListT} {t : AnoAtual} {ls : List Label}
    (hrun : run (step t) (.start list) ls = some s) (hl : s.p.lockList = none) : Quiet s := by
  have h : Linked s := run_invariant_of_step (step t) (fun _ _ _ => linked_step)
    (linked_start list) hrun
  exact fun c r hf => nomatch hl.symm.trans ((h.pLocks.list c).mp (holdsList_of_forwards hf))

def aloneSteps (c : Nat) (r : Request) : List Label :=
  let d := Conn.client c
  [.send c r, .own (.receive d), .own (.lock d), .own (.link d), .own (.alone d), .invoke d,
    .own (.release d), .own (.reply d), .answer c]

def acceptSteps : List Label := [.main, .notify, .watchUpdate, .watchReady]

theorem join_same_cars_before :
    ∃ s, run (step (.same 2026)) (.start listCreate)
        (startSteps ++ aloneSteps 0 ⟨1, toyotaRequest 2020⟩ ++ loadSteps ++ acceptSteps) = some s ∧
      cars s.n.list = cars s.p.list := by
  obtain ⟨s, hs, hend⟩ := Option.map_eq_some_iff.mp (show (run (step (.same 2026))
    (.start listCreate) (startSteps ++ aloneSteps 0 ⟨1, toyotaRequest 2020⟩ ++ loadSteps ++
      acceptSteps)).map (fun s => (s.boot, s.p.lockList)) = some (.accepting, none) by decide)
  obtain ⟨hb, hl⟩ := Prod.mk.inj hend
  exact ⟨s, hs, join_same_cars 2026 listCreate _ s (by decide) hs hb (quiet_of_run hs hl)⟩

/-- The new server has asked for the list, but the last one does not know yet
that it has a successor. -/
theorem join_missed :
    ∃ s, run (step (.same 2026)) (.start listCreate)
        (startSteps ++ loadSteps ++ aloneSteps 0 ⟨1, toyotaRequest 2020⟩ ++ acceptSteps) = some s ∧
      s.boot = .accepting ∧ s.watch = .done ∧ Quiet s ∧ cars s.n.list ≠ cars s.p.list := by
  obtain ⟨s, hs, hend⟩ := Option.map_eq_some_iff.mp (show (run (step (.same 2026))
    (.start listCreate) (startSteps ++ loadSteps ++ aloneSteps 0 ⟨1, toyotaRequest 2020⟩ ++
      acceptSteps)).map (fun s => (s.boot, s.watch, s.p.lockList, s.n.list, s.p.list)) =
    some (.accepting, .done, none, listCreate, ⟨1, [ClientStub.toyota 2020]⟩) by decide)
  simp only [Prod.mk.injEq] at hend
  obtain ⟨hb, hw, hl, hn, hp⟩ := hend
  refine ⟨s, hs, hb, hw, quiet_of_run hs hl, ?_⟩
  rw [hn, hp]
  decide

end ListServer.JoinCopy
