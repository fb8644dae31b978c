import ListServer.Linearizability
import ListServer.Lib.Progress

namespace ListServer.ChainProgress

open CarList Message Skeleton ClientThread ChainSystem ChainControl Linearizability
open Lib.Transition Lib.Progress

def isSend : Label → Bool
  | .send .. => true
  | _ => false

def AllIdle (s : Chain) : Prop := ∀ x, phaseAt s x = .idle

def AllAnswered (ls : List Label) : Prop :=
  ∀ i c r, Label.send i c r ∈ ls → ∃ m, Label.answer i c r m ∈ ls

/-- The steps that a thread and the servers behind it may still take for a
request, of which `m` are for one that has just been sent. -/
def left (m : Nat) : Phase → Nat
  | .idle => 0
  | .sent _ => m
  | .received _ => m - 1
  | .locked _ => m - 2
  | .linked _ => m - 3
  | .waiting _ | .forwarded _ _ => 4
  | .invoked _ _ => 3
  | .released _ _ => 2
  | .replied _ _ => 1

section Cases

variable {n : Nat} {t : AnoAtual} {s s' : Chain} {l : Label}

structure Advances (p q : Phase) : Prop where
  request : ∃ r, p.request = some r ∧ q.request = some r
  less : ∀ m, 8 ≤ m → left m q < left m p

theorem own_advances {u u' : Server} {a : Act} (ha : isOwn a = true) (h : u.step t a = some u') :
    ∃ c p, u'.phase = (u.setPhase c p).phase ∧ Advances (u.phase c) p := by
  cases a with
  | receive c =>
    obtain ⟨r, hp, rfl⟩ := step_receive.mp h
    exact ⟨c, _, rfl, ⟨r, by rw [hp]; rfl, rfl⟩, fun m hm => by rw [hp, left, left]; omega⟩
  | lock c =>
    obtain ⟨r, hp, -, rfl⟩ := step_lock.mp h
    exact ⟨c, _, rfl, ⟨r, by rw [hp]; rfl, rfl⟩, fun m hm => by rw [hp, left, left]; omega⟩
  | link c =>
    obtain ⟨r, hp, -, -, rfl⟩ := step_link.mp h
    exact ⟨c, _, rfl, ⟨r, by rw [hp]; rfl, rfl⟩, fun m hm => by rw [hp, left, left]; omega⟩
  | alone c =>
    obtain ⟨r, hp, -, rfl⟩ := step_alone.mp h
    exact ⟨c, _, rfl, ⟨r, by rw [hp]; rfl, rfl⟩, fun m hm => by rw [hp, left, left]; omega⟩
  | release c =>
    obtain ⟨r, m, hp, rfl⟩ := step_release.mp h
    exact ⟨c, _, rfl, ⟨r, by rw [hp]; rfl, rfl⟩, fun m hm => by rw [hp, left, left]; omega⟩
  | reply c =>
    obtain ⟨r, m, hp, rfl⟩ := step_reply.mp h
    exact ⟨c, _, rfl, ⟨r, by rw [hp]; rfl, rfl⟩, fun m hm => by rw [hp, left, left]; omega⟩
  | deliver | forward | back | invoke | take => cases ha

inductive Effect (n : Nat) (s s' : Chain) : Label → Prop
  | send (i c : Nat) (r : Request) (hi : i < n) (hold : phaseAt s (i, .client c) = .idle)
      (hat : ∀ y, phaseAt s' y = if y = (i, .client c) then .sent r else phaseAt s y) :
      Effect n s s' (.send i c r)
  | advance (l : Label) (x : Place) (p : Phase) (hl : isSend l = false)
      (hp : Advances (phaseAt s x) p)
      (hat : ∀ y, phaseAt s' y = if y = x then p else phaseAt s y) : Effect n s s' l
  | forward (i : Nat) (c : Conn) (r : Request) (hi : i + 1 < n)
      (hold : phaseAt s (i, c) = .linked r) (hnext : phaseAt s (i + 1, .pred) = .idle)
      (hat : ∀ y, phaseAt s' y = if y = (i + 1, .pred) then .sent r
        else if y = (i, c) then .waiting r else phaseAt s y) : Effect n s s' (.forward i c)
  | back (i : Nat) (c : Conn) (r r' : Request) (m : MessageT)
      (hold : phaseAt s (i, c) = .waiting r) (hnext : phaseAt s (i + 1, .pred) = .replied r' m)
      (hat : ∀ y, phaseAt s' y = if y = (i + 1, .pred) then .idle
        else if y = (i, c) then .forwarded r 0 else phaseAt s y) : Effect n s s' (.back i c)
  | answer (i c : Nat) (r : Request) (m : MessageT)
      (hold : phaseAt s (i, .client c) = .replied r m)
      (hat : ∀ y, phaseAt s' y = if y = (i, .client c) then .idle else phaseAt s y) :
      Effect n s s' (.answer i c r m)

theorem step_effect (h : Control n s) (hs : step n t s l = some s') : Effect n s s' l := by
  cases l with
  | send i c r =>
    obtain ⟨hi, -, hp, rfl⟩ := step_send.mp hs
    exact .send i c r hi hp (at_set (s := s) (c := .client c) (p := .sent r) rfl)
  | own i a =>
    obtain ⟨ha, u, hu, rfl⟩ := step_own.mp hs
    obtain ⟨c, p, hphase, hadv⟩ := own_advances ha hu
    exact .advance _ (i, c) p rfl hadv (at_set hphase)
  | forward i c =>
    obtain ⟨r, hp, hn, hq, rfl⟩ := ChainSystem.step_forward.mp hs
    have hi : i + 1 < n := by simpa [h.next i] using hn
    exact .forward i c r hi hp hq (at_set_set rfl rfl)
  | back i c =>
    obtain ⟨r, r', m, hp, hq, rfl⟩ := ChainSystem.step_back.mp hs
    exact .back i c r r' m hp hq (at_set_set rfl rfl)
  | invoke i c r =>
    obtain ⟨rc, hp, rfl⟩ := ChainSystem.step_invoke.mp hs
    refine .advance _ (i, c) _ rfl ⟨⟨r, (invoke_place hp).1, rfl⟩, fun m hm => ?_⟩ (at_set rfl)
    obtain ⟨hp, -⟩ | hp := hp
    · rw [phaseAt, hp, left, left]
      omega
    · rw [phaseAt, hp, left, left]
      omega
  | answer i c r m =>
    obtain ⟨hp, rfl⟩ := step_answer.mp hs
    exact .answer i c r m hp (at_set (s := s) (c := .client c) (p := .idle) rfl)

end Cases

/-- A stable chain whose clients have numbers below `m`. -/
structure Plain (n m : Nat) (s : Chain) : Prop where
  control : Control n s
  succ : ∀ i, phaseAt s (i, .succ) = .idle
  watcher : ∀ i, (s.srv i).rlsLock ≠ some .watcher
  clients : ∀ i c, m ≤ c → phaseAt s (i, .client c) = .idle

/-- The writes go to the head, and the clients have numbers below `m`. -/
def Permitted (m : Nat) (l : Label) : Prop :=
  WritesAtHead l ∧ ∀ i c r, l = .send i c r → c < m

section Invariant

variable {n m : Nat} {t : AnoAtual} {s s' : Chain} {l : Label} {x : Place}

theorem Effect.idle (h : Effect n s s' l) (hx : phaseAt s x = .idle) (hpred : x.2 ≠ .pred)
    (hsend : ∀ i c r, l = .send i c r → x ≠ (i, .client c)) : phaseAt s' x = .idle := by
  cases h with
  | send i c r hi hold hat => rw [hat, if_neg (hsend i c r rfl), hx]
  | advance l y p hl hp hat =>
    have hne : x ≠ y := by
      rintro rfl
      obtain ⟨r, hr, -⟩ := hp.request
      rw [hx] at hr
      cases hr
    rw [hat, if_neg hne, hx]
  | forward i c r hi hold hnext hat =>
    have hne : x ≠ (i, c) := by
      rintro rfl
      cases hx.symm.trans hold
    rw [hat, if_neg (fun he => hpred (congrArg Prod.snd he)), if_neg hne, hx]
  | back i c r r' m hold hnext hat =>
    have hne : x ≠ (i, c) := by
      rintro rfl
      cases hx.symm.trans hold
    rw [hat, if_neg (fun he => hpred (congrArg Prod.snd he)), if_neg hne, hx]
  | answer i c r m hold hat =>
    rw [hat]
    split
    · rfl
    · exact hx

theorem watcher_step (h : Control n s) (hs : step n t s l = some s') (j : Nat) :
    (s'.srv j).rlsLock = some .watcher ↔ (s.srv j).rlsLock = some .watcher := by
  have hone : ∀ (s : Chain) (i : Nat) (u : Server),
      (u.rlsLock = some .watcher ↔ (s.srv i).rlsLock = some .watcher) →
      (((s.set i u).srv j).rlsLock = some .watcher ↔ (s.srv j).rlsLock = some .watcher) :=
    fun s i u hu => forall_set (s := s) (P := fun _ v w => v.rlsLock = some .watcher ↔
      w.rlsLock = some .watcher) hu (fun _ _ => Iff.rfl) j
  cases l with
  | send i c r =>
    obtain ⟨-, -, -, rfl⟩ := step_send.mp hs
    exact hone s i _ Iff.rfl
  | own i a =>
    obtain ⟨-, u, hu, rfl⟩ := step_own.mp hs
    exact hone s i u (step_watcher (h.locks i) hu)
  | forward i c =>
    obtain ⟨r, hp, hn, hq, rfl⟩ := ChainSystem.step_forward.mp hs
    exact (hone _ _ _ (by simp)).trans (hone s i _ Iff.rfl)
  | back i c =>
    obtain ⟨r, r', m, hp, hq, rfl⟩ := ChainSystem.step_back.mp hs
    have hrls := ((h.locks i).rls c).mp (by rw [hp]; rfl)
    exact (hone _ _ _ (by simp)).trans (hone s i _ (by simp [hrls]))
  | invoke i c r =>
    obtain ⟨rc, hp, rfl⟩ := ChainSystem.step_invoke.mp hs
    exact hone s i _ Iff.rfl
  | answer i c r m =>
    obtain ⟨hp, rfl⟩ := step_answer.mp hs
    exact hone s i _ Iff.rfl

theorem plain_step (h : Plain n m s) (hl : Permitted m l) (hs : step n t s l = some s') :
    Plain n m s' := by
  have heffect := step_effect h.control hs
  refine ⟨control_step h.control hl.1 hs, fun i => ?_, fun i hw => ?_, fun i c hc => ?_⟩
  · exact heffect.idle (h.succ i) nofun (fun _ _ _ _ => nofun)
  · exact h.watcher i ((watcher_step h.control hs i).mp hw)
  · refine heffect.idle (h.clients i c hc) nofun fun j d r he hx => ?_
    have hd := hl.2 j d r he
    obtain rfl := Conn.client.inj (Prod.mk.inj hx).2
    omega

theorem plain_start (n m : Nat) (list : ListT) : Plain n m (Chain.start n list) :=
  ⟨control_start n list, fun _ => rfl, fun _ => nofun, fun _ _ _ => rfl⟩

end Invariant

section Next

variable {n m i : Nat} (t : AnoAtual) {s : Chain} {c : Conn}

/-- Some step other than the sending of a request is possible. -/
def Works (n : Nat) (t : AnoAtual) (s : Chain) : Prop :=
  ∃ l, isSend l = false ∧ Enabled (step n t) s l

theorem works_own {a : Act} (ha : isOwn a = true) {u : Server} (h : (s.srv i).step t a = some u) :
    Works n t s := ⟨.own i a, rfl, _, step_own.mpr ⟨ha, u, h, rfl⟩⟩

theorem works_invoke {r : Request} {rc : Int}
    (h : ((s.srv i).phase c = .locked r ∧ needsForward r.msg = false ∧ rc = 0) ∨
      (s.srv i).phase c = .forwarded r rc) : Works n t s :=
  ⟨.invoke i c r, rfl, _, ChainSystem.step_invoke.mpr ⟨rc, h, rfl⟩⟩

/-- The thread that holds `lock_list` can go on, or it waits for a successor
that can. -/
theorem works_holder (h : Plain n m s) (hc : ((s.srv i).phase c).holdsList = true)
    (hnext : phaseAt s (i + 1, .pred) ≠ .idle → Works n t s) : Works n t s := by
  have hunique : ∀ d, ((s.srv i).phase d).holdsList = true → d = c := fun d hd =>
    h.control.unique hd hc
  cases hp : (s.srv i).phase c with
  | locked r =>
    by_cases hw : needsForward r.msg = true
    · have hfree : (s.srv i).rlsLock = none := by
        cases hr : (s.srv i).rlsLock with
        | none => rfl
        | some holder =>
          cases holder with
          | watcher => exact absurd hr (h.watcher i)
          | thread d =>
            have hd := ((h.control.locks i).rls d).mpr hr
            obtain rfl := hunique d (by cases hq : (s.srv i).phase d <;> rw [hq] at hd <;>
              first | rfl | cases hd)
            rw [hp] at hd
            cases hd
      exact works_own t (a := .link c) rfl (step_link.mpr ⟨r, hp, hw, hfree, rfl⟩)
    · exact works_invoke t (.inl ⟨hp, by simpa using hw, rfl⟩)
  | linked r =>
    cases hn : (s.srv i).next with
    | false => exact works_own t (a := .alone c) rfl (step_alone.mpr ⟨r, hp, hn, rfl⟩)
    | true =>
      by_cases hidle : phaseAt s (i + 1, .pred) = .idle
      · exact ⟨.forward i c, rfl, _, ChainSystem.step_forward.mpr ⟨r, hp, hn, hidle, rfl⟩⟩
      · exact hnext hidle
  | waiting r =>
    refine hnext fun hidle => ?_
    have hlink := (h.control.link i r).mpr ⟨c, hp⟩
    rw [phaseAt] at hidle
    rw [hidle] at hlink
    cases hlink
  | forwarded r rc => exact works_invoke t (.inr hp)
  | invoked r msg => exact works_own t (a := .release c) rfl (step_release.mpr ⟨r, msg, hp, rfl⟩)
  | _ =>
    rw [hp] at hc
    cases hc

/-- As long as a request is somewhere, some server can go on: the induction is
on the number of servers behind the one that has the request. -/
theorem works_of_busy (h : Plain n m s) (hx : phaseAt s (i, c) ≠ .idle) : Works n t s := by
  induction hk : n - i using Nat.strongRecOn generalizing i c with
  | ind k ih =>
    have hinside : ∀ r, ((s.srv i).phase c).request = some r → i < n :=
      h.control.inside i c
    have hnext : i < n → phaseAt s (i + 1, .pred) ≠ .idle → Works n t s := fun hi hne =>
      ih (n - (i + 1)) (by omega) hne rfl
    cases hp : (s.srv i).phase c with
    | idle => exact absurd hp hx
    | sent r => exact works_own t (a := .receive c) rfl (step_receive.mpr ⟨r, hp, rfl⟩)
    | received r =>
      have hi := hinside r (by rw [hp]; rfl)
      cases hl : (s.srv i).lockList with
      | none => exact works_own t (a := .lock c) rfl (step_lock.mpr ⟨r, hp, hl, rfl⟩)
      | some d =>
        exact works_holder t h (((h.control.locks i).list d).mpr hl) (hnext hi)
    | released r msg => exact works_own t (a := .reply c) rfl (step_reply.mpr ⟨r, msg, hp, rfl⟩)
    | replied r msg =>
      cases c with
      | succ => exact absurd (h.succ i) hx
      | client d => exact ⟨.answer i d r msg, rfl, _, step_answer.mpr ⟨hp, rfl⟩⟩
      | pred =>
        cases i with
        | zero =>
          have hhead := h.control.head
          rw [hp] at hhead
          cases hhead
        | succ i =>
          obtain ⟨d, hd⟩ := (h.control.link i r).mp (by rw [hp]; rfl)
          exact ⟨.back i d, rfl, _, ChainSystem.step_back.mpr ⟨r, r, msg, hd, hp, rfl⟩⟩
    | locked r | linked r | waiting r | forwarded r rc | invoked r msg =>
      have hi := hinside r (by rw [hp]; rfl)
      exact works_holder t h (by rw [hp]; rfl) (hnext hi)

end Next

section Potential

variable {n m : Nat} {t : AnoAtual} {s s' : Chain} {l : Label} {x : Place}

def places (n m : Nat) : Finset Place :=
  Finset.range n ×ˢ insert Conn.pred ((Finset.range m).image Conn.client)

/-- The steps that are left for the request at a place: eight for each server
that it has still to visit. -/
def weight (n : Nat) (s : Chain) (x : Place) : Nat := left (8 * (n - x.1)) (phaseAt s x)

def total (n m : Nat) (s : Chain) : Nat := ∑ x ∈ places n m, weight n s x

theorem mem_pred {i : Nat} (hi : i < n) : (i, Conn.pred) ∈ places n m := by simp [places, hi]

theorem mem_client {i c : Nat} (hi : i < n) (hc : c < m) : (i, Conn.client c) ∈ places n m := by
  simp [places, hi, hc]

theorem Plain.inside (h : Plain n m s) (hx : phaseAt s x ≠ .idle) : x.1 < n := by
  obtain ⟨r, hr⟩ := Option.ne_none_iff_exists'.mp (mt request_eq_none.mp hx)
  exact h.control.inside x.1 x.2 r hr

theorem Plain.mem_places (h : Plain n m s) (hx : phaseAt s x ≠ .idle) : x ∈ places n m := by
  have hi := h.inside hx
  obtain ⟨i, c⟩ := x
  cases c with
  | pred => exact mem_pred hi
  | succ => exact absurd (h.succ i) hx
  | client c => exact mem_client hi (Nat.lt_of_not_le fun hc => hx (h.clients i c hc))

theorem weight_of {p : Phase} (hat : phaseAt s x = p) : weight n s x = left (8 * (n - x.1)) p := by
  rw [weight, hat]

theorem weight_same (hat : phaseAt s' x = phaseAt s x) : weight n s' x = weight n s x := by
  rw [weight, weight, hat]

theorem total_send (h : Plain n m s) (hl : Permitted m l) (hs : step n t s l = some s')
    (hsend : isSend l = true) : total n m s' ≤ total n m s + 8 * n := by
  cases step_effect h.control hs with
  | send i c r hi hold hat =>
    have hold := weight_of (n := n) hold
    have hnew : weight n s' (i, .client c) = 8 * (n - i) :=
      weight_of ((hat _).trans (if_pos rfl))
    have hsum := sum_change (f := weight n s') (g := weight n s)
      (mem_client hi (hl.2 i c r rfl)) fun z hz => weight_same ((hat z).trans (if_neg hz))
    have hle : 8 * (n - i) ≤ 8 * n := Nat.mul_le_mul_left 8 (Nat.sub_le n i)
    rw [hold, hnew, left] at hsum
    rw [total, total]
    omega
  | advance l y p hl hp hat =>
    rw [hl] at hsend
    cases hsend
  | forward | back | answer => cases hsend

theorem total_work (h : Plain n m s) (hs : step n t s l = some s') (hsend : isSend l = false) :
    total n m s' < total n m s := by
  rw [total, total]
  cases step_effect h.control hs with
  | send => cases hsend
  | advance l y p hl hp hat =>
    have hbusy : phaseAt s y ≠ .idle := by
      obtain ⟨r, hr, -⟩ := hp.request
      exact mt request_eq_none.mpr (by simp [hr])
    have hi := h.inside hbusy
    have hnew : weight n s' y = left (8 * (n - y.1)) p := weight_of ((hat y).trans (if_pos rfl))
    have hless := hp.less (8 * (n - y.1)) (by omega)
    have hsum := sum_change (f := weight n s') (g := weight n s) (h.mem_places hbusy)
      fun z hz => weight_same ((hat z).trans (if_neg hz))
    rw [hnew, weight_of rfl] at hsum
    omega
  | forward i c r hi hold hnext hat =>
    have hne : ((i, c) : Place) ≠ (i + 1, .pred) := by simp
    have hx : (i, c) ∈ places n m := h.mem_places (by simp [hold])
    have hsum := sum_change_two (f := weight n s') (g := weight n s) hx (mem_pred hi) hne
      fun z hzx hzy => weight_same (by rw [hat, if_neg hzy, if_neg hzx])
    have hwait : weight n s' (i, c) = 4 :=
      weight_of (by rw [hat, if_neg hne, if_pos rfl])
    have hsent : weight n s' (i + 1, .pred) = 8 * (n - (i + 1)) :=
      weight_of (by rw [hat, if_pos rfl])
    have hlinked : weight n s (i, c) = 8 * (n - i) - 3 := weight_of hold
    have hidle : weight n s (i + 1, .pred) = 0 := weight_of hnext
    rw [hwait, hsent, hlinked, hidle] at hsum
    omega
  | back i c r r' msg hold hnext hat =>
    have hne : ((i, c) : Place) ≠ (i + 1, .pred) := by simp
    have hx : (i, c) ∈ places n m := h.mem_places (by simp [hold])
    have hy : (i + 1, Conn.pred) ∈ places n m := h.mem_places (by simp [hnext])
    have hsum := sum_change_two (f := weight n s') (g := weight n s) hx hy hne
      fun z hzx hzy => weight_same (by rw [hat, if_neg hzy, if_neg hzx])
    have hforwarded : weight n s' (i, c) = 4 := weight_of (by rw [hat, if_neg hne, if_pos rfl])
    have hidle : weight n s' (i + 1, .pred) = 0 := weight_of (by rw [hat, if_pos rfl])
    have hwait : weight n s (i, c) = 4 := weight_of hold
    have hreplied : weight n s (i + 1, .pred) = 1 := weight_of hnext
    rw [hforwarded, hidle, hwait, hreplied] at hsum
    omega
  | answer i c r msg hold hat =>
    have hnew : weight n s' (i, .client c) = 0 := weight_of ((hat _).trans (if_pos rfl))
    have hreplied : weight n s (i, .client c) = 1 := weight_of hold
    have hsum := sum_change (f := weight n s') (g := weight n s)
      (h.mem_places (x := (i, .client c)) (by simp [hold]))
      fun z hz => weight_same ((hat z).trans (if_neg hz))
    rw [hnew, hreplied] at hsum
    omega

end Potential

section Answers

variable {n m : Nat} {t : AnoAtual} {s s' : Chain} {l : Label} {ls : List Label}

def Accounted (ls : List Label) (s : Chain) : Prop :=
  ∀ i c r, Label.send i c r ∈ ls →
    (phaseAt s (i, .client c)).request = some r ∨ ∃ msg, Label.answer i c r msg ∈ ls

theorem accounted_step (h : Control n s) (hacc : Accounted ls s) (hs : step n t s l = some s') :
    Accounted (ls ++ [l]) s' := by
  have heffect := step_effect h hs
  intro i c r hsend
  rw [List.mem_append, List.mem_singleton] at hsend
  obtain hold | rfl := hsend
  · obtain hat | ⟨msg, hmsg⟩ := hacc i c r hold
    · -- the request is kept by every step at its place but its answer
      cases heffect with
      | send j d r' hj hidle hnew =>
        refine .inl ?_
        rw [hnew]
        split
        next heq =>
          rw [heq, hidle] at hat
          cases hat
        next => exact hat
      | advance l y p hl hp hnew =>
        refine .inl ?_
        rw [hnew]
        split
        next heq =>
          obtain ⟨q, hq, hq'⟩ := hp.request
          rw [heq] at hat
          rw [hq', ← hq, hat]
        next => exact hat
      | forward j d r' hj hlinked hnext hnew =>
        refine .inl ?_
        rw [hnew, if_neg (by simp)]
        split
        next heq =>
          rw [heq, hlinked] at hat
          exact hat
        next => exact hat
      | back j d r' q msg hwait hnext hnew =>
        refine .inl ?_
        rw [hnew, if_neg (by simp)]
        split
        next heq =>
          rw [heq, hwait] at hat
          exact hat
        next => exact hat
      | answer j d r' msg hreplied hnew =>
        by_cases heq : ((i, .client c) : Place) = (j, .client d)
        · obtain ⟨rfl, hd⟩ := Prod.mk.inj heq
          obtain rfl := Conn.client.inj hd
          rw [hreplied] at hat
          obtain rfl := Option.some.inj hat
          exact .inr ⟨msg, List.mem_append_right ls List.mem_cons_self⟩
        · refine .inl ?_
          rw [hnew, if_neg heq]
          exact hat
    · exact .inr ⟨msg, List.mem_append_left [l] hmsg⟩
  · cases heffect with
    | send _ _ _ _ _ hnew => exact .inl (by rw [hnew, if_pos rfl]; rfl)
    | advance _ _ _ hl => cases hl

theorem allAnswered_of_idle (hacc : Accounted ls s) (hidle : AllIdle s) : AllAnswered ls := by
  intro i c r hsend
  obtain hat | hmsg := hacc i c r hsend
  · rw [hidle] at hat
    cases hat
  · exact hmsg

theorem exists_clients (ls : List Label) : ∃ m, ∀ i c r, Label.send i c r ∈ ls → c < m := by
  induction ls with
  | nil => exact ⟨0, fun _ _ _ h => absurd h List.not_mem_nil⟩
  | cons l ls ih =>
    obtain ⟨m, hm⟩ := ih
    cases l with
    | send i c r =>
      refine ⟨max m (c + 1), fun j d q h => ?_⟩
      obtain heq | hmem := List.mem_cons.mp h
      · cases heq
        omega
      · have := hm j d q hmem
        omega
    | own | forward | back | invoke | answer =>
      exact ⟨m, fun j d q h => hm j d q ((List.mem_cons.mp h).resolve_left nofun)⟩

end Answers

theorem accounted_run {n m : Nat} {t : AnoAtual} {s u : Chain} {ls ms : List Label}
    (h : Plain n m s) (hacc : Accounted ls s) (hms : ∀ l ∈ ms, Permitted m l)
    (hrun : run (step n t) s ms = some u) : Plain n m u ∧ Accounted (ls ++ ms) u :=
  run_trace_invariant (step n t) (G := fun _ => Permitted m)
    (I := fun ls s => Plain n m s ∧ Accounted ls s)
    (fun _ _ _ _ hI hl hs => ⟨plain_step hI.1 hl hs, accounted_step hI.1.control hI.2 hs⟩)
    ls ⟨h, hacc⟩ (meets_of_labels _ hms s) hrun

theorem total_start (n m : Nat) (list : ListT) : total n m (Chain.start n list) = 0 :=
  Finset.sum_eq_zero fun _ _ => rfl

theorem exists_busy {s : Chain} (h : ¬ AllIdle s) : ∃ i c, phaseAt s (i, c) ≠ .idle := by
  obtain ⟨x, hx⟩ := not_forall.mp h
  exact ⟨x.1, x.2, hx⟩

theorem permitted_of_work {m : Nat} {l : Label} (hl : isSend l = false) : Permitted m l := by
  cases l with
  | send => cases hl
  | own | forward | back | invoke | answer => exact ⟨trivial, nofun⟩

end ListServer.ChainProgress
