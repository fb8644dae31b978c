import ListServer.Agreement
import ListServer.Linearizability
import ListServer.Lib.Replication

namespace ListServer.WriteOrder

open CarList Message Skeleton ClientThread ChainSystem ChainControl ChainPairs Linearizability
open Agreement ClientStub
open Lib.Transition Lib.Replication

def writeOf : Label → Option (Nat × Request)
  | .invoke i _ r => if needsForward r.msg then some (i, r) else none
  | _ => none

def executions (ls : List Label) : List (Nat × Request) := ls.filterMap writeOf

/-- The writes that server `i` has executed, in its order. -/
def writesAt (i : Nat) (ls : List Label) : List Request := own i (executions ls)

def executeAll (t : AnoAtual) (list : ListT) (rs : List Request) : ListT :=
  rs.foldl (fun list r => after t r.msg list) list

section Marks

variable {n : Nat} {t : AnoAtual} {s s' u : Chain}

/-- The places by which a server can be ahead of another look the same. -/
structure SameMarks (s s' : Chain) : Prop where
  executed : ∀ j, (phaseAt s' (j, .pred)).executed = (phaseAt s (j, .pred)).executed
  ok : ∀ x r, phaseAt s' x = .forwarded r 0 ↔ phaseAt s x = .forwarded r 0

theorem SameMarks.ahead (h : SameMarks s s') (i : Nat) (r : Request) :
    Ahead s' i r ↔ Ahead s i r :=
  ahead_congr (h.executed (i + 1)) (fun d => h.ok (i, d)) r

theorem SameMarks.trans (h : SameMarks s u) (h' : SameMarks u s') : SameMarks s s' :=
  ⟨fun j => (h'.executed j).trans (h.executed j), fun x r => (h'.ok x r).trans (h.ok x r)⟩

theorem sameMarks_set {i : Nat} {c : Conn} {p q : Phase} {v : Server}
    (hx : phaseAt s (i, c) = q) (hv : v.phase = ((s.srv i).setPhase c p).phase)
    (hold : ∀ r, q ≠ .forwarded r 0) (hnew : ∀ r, p ≠ .forwarded r 0)
    (hex : c = .pred → p.executed = q.executed) : SameMarks s (s.set i v) := by
  subst hx
  refine ⟨fun j => ?_, fun x r => ?_⟩
  · rw [at_set hv]
    split
    next he =>
      obtain ⟨rfl, rfl⟩ := Prod.mk.inj he
      exact hex rfl
    next => rfl
  · rw [at_set hv]
    split
    next he =>
      rw [he]
      exact ⟨fun h => absurd h (hnew r), fun h => absurd h (hold r)⟩
    next => exact Iff.rfl

theorem sameMarks_own {i : Nat} {a : Act} (hs : step n t s (.own i a) = some s') :
    SameMarks s s' := by
  obtain ⟨ha, u, hu, rfl⟩ := step_own.mp hs
  obtain ⟨-, -, hlike⟩ := own_frame ha hu
  have hall : ∀ x, Like (phaseAt (s.set i u) x) (phaseAt s x) := fun x =>
    forall_set (s := s) (P := fun _ v w => ∀ d, Like (v.phase d) (w.phase d)) hlike
      (fun _ _ _ => Like.refl _) x.1 x.2
  exact ⟨fun j => (hall (j, .pred)).executed, fun x => (hall x).ok⟩

theorem sameMarks_forward {i : Nat} {c : Conn} (hs : step n t s (.forward i c) = some s') :
    SameMarks s s' := by
  obtain ⟨r, hc, -, hq, rfl⟩ := ChainSystem.step_forward.mp hs
  have hx : phaseAt s (i, c) = .linked r := hc
  have hfirst : SameMarks s (s.set i ((s.srv i).setPhase c (.waiting r))) :=
    sameMarks_set (p := .waiting r) hx rfl (by simp) (by simp) fun _ => rfl
  have hy : phaseAt (s.set i ((s.srv i).setPhase c (.waiting r))) (i + 1, .pred) = .idle := by
    simpa [phaseAt] using hq
  exact hfirst.trans
    (sameMarks_set (p := .sent r) hy (by simp) (by simp) (by simp) fun _ => rfl)

theorem ahead_back {i : Nat} {c : Conn} (h : Control n s) (hs : step n t s (.back i c) = some s')
    (j : Nat) (q : Request) : Ahead s' j q ↔ Ahead s j q := by
  obtain ⟨r, r', m, hc, hp, rfl⟩ := ChainSystem.step_back.mp hs
  have hx : phaseAt s (i, c) = .waiting r := hc
  have hy : phaseAt s (i + 1, .pred) = .replied r' m := hp
  have hholds : ((s.srv i).phase c).holdsList = true := by rw [hc]; rfl
  obtain rfl : r' = r := by
    obtain ⟨d, hd⟩ := (h.link i r').mp (by rw [hp]; rfl)
    obtain rfl : d = c := h.unique (i := i) (by rw [hd]; rfl) hholds
    exact Phase.waiting.inj (hd.symm.trans hc)
  have hat := at_set_set (s := s) (i := i) (c := c) (p := .forwarded r' 0) (q := .idle)
    (u := { (s.srv i).setPhase c (.forwarded r' 0) with rlsLock := none })
    (v := (s.srv (i + 1)).setPhase .pred .idle) rfl rfl
  have hno := not_forwarded_of_holds h hholds (by simp [hc])
  by_cases hji : j = i
  · subst hji
    have hafter : Ahead ((s.set j { (s.srv j).setPhase c (.forwarded r' 0) with
        rlsLock := none }).set (j + 1) ((s.srv (j + 1)).setPhase .pred .idle)) j q ↔ r' = q := by
      constructor
      · rintro (⟨m', hm'⟩ | ⟨d, hd⟩)
        · have hidle := hat (j + 1, .pred)
          rw [if_pos rfl, phaseAt] at hidle
          rw [hidle] at hm'
          cases hm'
        · have hplace := hat (j, d)
          rw [if_neg (by simp), phaseAt, hd] at hplace
          split at hplace
          next => exact (Phase.forwarded.inj hplace).1.symm
          next => exact absurd hplace.symm (hno d q)
      · rintro rfl
        refine .inr ⟨c, ?_⟩
        have hplace := hat (j, c)
        rwa [if_neg (by simp), if_pos rfl] at hplace
    have hbefore : Ahead s j q ↔ r' = q := by
      constructor
      · rintro (⟨m', hm'⟩ | ⟨d, hd⟩)
        · rw [hp] at hm'
          exact (Prod.mk.inj (Option.some.inj hm')).1
        · exact absurd hd (hno d q)
      · rintro rfl
        exact .inl ⟨m, by rw [hp]; rfl⟩
    rw [hafter, hbefore]
  · refine ahead_congr ?_ (fun d p => ?_) q
    · have hplace := hat (j + 1, .pred)
      rw [if_neg (by simpa using hji)] at hplace
      rw [phaseAt] at hplace
      rw [hplace]
      split
      next he =>
        obtain ⟨rfl, rfl⟩ := Prod.mk.inj he
        rw [hc]
        rfl
      next => rfl
    · have hplace := hat (j, d)
      rw [phaseAt] at hplace
      rw [hplace]
      split
      next he =>
        obtain ⟨rfl, rfl⟩ := Prod.mk.inj he
        simp [hp]
      next =>
        rw [if_neg (fun he => hji (Prod.mk.inj he).1)]
        exact Iff.rfl

/-- Only the execution of a write changes which servers are ahead. -/
theorem ahead_step {l : Label} (h : Control n s) (hs : step n t s l = some s')
    (hl : writeOf l = none) (j : Nat) (q : Request) : Ahead s' j q ↔ Ahead s j q := by
  cases l with
  | send i c r =>
    obtain ⟨-, -, hc, rfl⟩ := step_send.mp hs
    have hx : phaseAt s (i, .client c) = .idle := hc
    exact (sameMarks_set (p := .sent r) hx rfl (by simp) (by simp) nofun).ahead j q
  | own i a => exact (sameMarks_own hs).ahead j q
  | forward i c => exact (sameMarks_forward hs).ahead j q
  | back i c => exact ahead_back h hs j q
  | invoke i c r =>
    have hr : needsForward r.msg = false := by simpa [writeOf] using hl
    obtain ⟨rc, ⟨hc, -, rfl⟩ | hc, rfl⟩ := ChainSystem.step_invoke.mp hs
    · have hx : phaseAt s (i, c) = .locked r := hc
      refine SameMarks.ahead ?_ j q
      refine sameMarks_set hx rfl (by simp) (by simp) fun hpred => ?_
      subst hpred
      have hw := h.pred_write (i := i) (r := r) (by rw [hc]; rfl)
      rw [hr] at hw
      cases hw
    · have hw := (h.locks i).writes c r (by rw [hc]; rfl)
      rw [hr] at hw
      cases hw
  | answer i c r m =>
    obtain ⟨hc, rfl⟩ := step_answer.mp hs
    have hx : phaseAt s (i, .client c) = .replied r m := hc
    exact (sameMarks_set (p := .idle) hx rfl (by simp) (by simp) nofun).ahead j q

theorem not_executed_of_forwards {p : Phase} {r : Request} (h : p.forwards = some r) :
    p.executed = none := by
  cases p with
  | invoked | released | replied => cases h
  | idle | sent | received | locked | linked | waiting | forwarded => rfl

theorem no_forward_below (h : Control n s) {i : Nat} {r : Request} (ha : Ahead s i r) {j : Nat}
    (hj : i + 1 ≤ j) (c : Conn) (q : Request) : ((s.srv j).phase c).forwards ≠ some q := by
  induction j, hj using Nat.le_induction generalizing c q with
  | base =>
    intro hf
    have hreq := forwards_request hf
    obtain rfl := h.write_pred hreq ((h.locks (i + 1)).writes c q hf)
    obtain ⟨m, hm⟩ | ⟨d, hd⟩ := ha
    · rw [not_executed_of_forwards hf] at hm
      cases hm
    · obtain ⟨e, he⟩ := (h.link i q).mp hreq
      obtain rfl : d = e := h.unique (i := i) (by rw [hd]; rfl) (by rw [he]; rfl)
      rw [hd] at he
      cases he
  | succ j hj ih =>
    intro hf
    have hreq := forwards_request hf
    obtain rfl := h.write_pred hreq ((h.locks (j + 1)).writes c q hf)
    obtain ⟨d, hd⟩ := (h.link j q).mp hreq
    exact ih d q (by rw [hd]; rfl)

/-- A server that executes a write catches up with its successor and gets
ahead of its predecessor. -/
theorem ahead_write {i : Nat} {c : Conn} {r : Request} {rc : Int} {msg : MessageT} {list : ListT}
    (h : Control n s) (hc : (s.srv i).phase c = .forwarded r rc) (j : Nat) (q : Request) :
    Ahead (s.set i { (s.srv i).setPhase c (.invoked r msg) with list := list }) j q ↔
      (j + 1 = i ∧ q = r) ∨ (j ≠ i ∧ j + 1 ≠ i ∧ Ahead s j q) := by
  have hholds : ((s.srv i).phase c).holdsList = true := by rw [hc]; rfl
  have hw := (h.locks i).writes c r (by rw [hc]; rfl)
  by_cases hji : j = i
  · subst hji
    have hnot : ¬ Ahead (s.set j { (s.srv j).setPhase c (.invoked r msg) with list := list })
        j q := by
      rintro (⟨m', hm'⟩ | ⟨d, hd⟩)
      · exact not_executed_of_holds h hholds (by simp [hc]) q m' (by simpa using hm')
      · obtain ⟨hdc, hd⟩ := setPhase_other (by simpa using hd) (by simp)
        exact hdc (h.unique (i := j) (by rw [hd]; rfl) hholds)
    exact ⟨fun ha => absurd ha hnot, fun ha => by omega⟩
  · by_cases hj : j + 1 = i
    · subst hj
      obtain rfl : c = .pred := h.write_pred (i := j) (by rw [hc]; rfl) hw
      obtain ⟨d, hd⟩ := (h.link j r).mp (by rw [hc]; rfl)
      constructor
      · rintro (⟨m', hm'⟩ | ⟨e, he⟩)
        · have hexec : some (r, msg) = some (q, m') := by simpa [Phase.executed] using hm'
          exact .inl ⟨rfl, (Prod.mk.inj (Option.some.inj hexec)).1.symm⟩
        · exact absurd (by simpa [hji] using he) (not_forwarded_of_holds h (i := j) (c := d)
            (by rw [hd]; rfl) (by simp [hd]) e q)
      · rintro (⟨-, rfl⟩ | ⟨-, hne, -⟩)
        · exact .inl ⟨msg, by simp [Phase.executed]⟩
        · exact absurd rfl hne
    · have hsame : Ahead (s.set i { (s.srv i).setPhase c (.invoked r msg) with list := list }) j q ↔
          Ahead s j q := ahead_congr (by simp [hj]) (fun d p => by simp [hji]) q
      rw [hsame]
      exact ⟨fun ha => .inr ⟨hji, hj, ha⟩, fun ha => ha.elim (fun he => absurd he.1 hj) (·.2.2)⟩

end Marks

section Order

variable {n : Nat} {t : AnoAtual} {list : ListT} {s s' : Chain} {log log' : Log Request}
  {l : Label}

/-- The chain behaves like the log of a line whose last member executes every
write first. -/
structure Ordered (n : Nat) (t : AnoAtual) (list : ListT) (s : Chain) (log : Log Request) :
    Prop where
  control : Control n s
  ahead : ∀ i r, i + 1 < n → (Ahead s i r ↔ log.pending = some (i + 1, r))
  place : ∀ k r, log.pending = some (k, r) → 0 < k ∧ k < n
  nodup : log.all.Nodup
  sent : ∀ x r, (phaseAt s x).request = some r → r.id < s.count
  below : ∀ r ∈ log.all, r.id < s.count
  once : ∀ x y r, Active (phaseAt s x) r → Active (phaseAt s y) r → x = y
  early : ∀ x r, Early (phaseAt s x) r → r ∉ log.all
  done : ∀ x r m, (phaseAt s x).executed = some (r, m) → needsForward r.msg = true →
    r ∈ log.view x.1
  lists : ∀ i, i < n → models (s.srv i).list = models (executeAll t list (log.view i))

theorem ordered_start (n : Nat) (t : AnoAtual) (list : ListT) :
    Ordered n t list (Chain.start n list) Log.empty where
  control := control_start n list
  ahead i r _ := by simp [Ahead, Chain.start, Server.start, Phase.executed, Log.empty]
  place k r h := by cases h
  nodup := List.nodup_nil
  sent x r h := by cases h
  below r h := absurd h List.not_mem_nil
  once x y r h := by cases h.1
  early x r h := by cases h.1.1
  done x r m h := by cases h
  lists i _ := rfl

theorem ordered_moves (h : Ordered n t list s log) (hl : WritesAtHead l)
    (hs : step n t s l = some s') (hm : Moves s s') (hwrite : writeOf l = none)
    (hcount : s'.count = s.count) (hlist : ∀ i, (s'.srv i).list = (s.srv i).list) :
    Ordered n t list s' log := by
  obtain ⟨g, hinj, hback⟩ := hm.back
  refine {
    control := control_step h.control hl hs
    ahead := fun i r hi => (ahead_step h.control hs hwrite i r).trans (h.ahead i r hi)
    place := h.place
    nodup := h.nodup
    sent := fun x r hx => ?_
    below := hcount ▸ h.below
    once := fun x y r hx hy => hinj (h.once (g x) (g y) r (hback x r hx).1 (hback y r hy).1)
    early := fun x r hx => h.early (g x) r ((hback x r hx.1).2 hx)
    done := fun x r m hx => h.done x r m (hm.executed x r m hx)
    lists := fun i hi => by rw [hlist, h.lists i hi] }
  obtain ⟨y, hy, -⟩ := hm.request x r hx
  exact hcount ▸ h.sent y r hy

theorem ordered_send {i c : Nat} {r : Request} (h : Ordered n t list s log)
    (hl : WritesAtHead (.send i c r)) (hs : step n t s (.send i c r) = some s') :
    Ordered n t list s' log := by
  have hcontrol := control_step h.control hl hs
  have hahead := ahead_step h.control hs rfl
  obtain ⟨-, hid, hc, rfl⟩ := step_send.mp hs
  have hat := at_set (s := s) (i := i) (c := .client c) (p := .sent r)
    (u := (s.srv i).setPhase (.client c) (.sent r)) rfl
  have hnew : ∀ x, (phaseAt s x).request ≠ some r := fun x hx => by
    have hlt := h.sent x r hx
    omega
  -- a place other than the new one is as before
  have hold : ∀ x q, (phaseAt (s.set i ((s.srv i).setPhase (.client c) (.sent r))) x).request =
      some q → (x = (i, .client c) ∧ q = r) ∨ (x ≠ (i, .client c) ∧ (phaseAt s x).request = some q ∧
        phaseAt (s.set i ((s.srv i).setPhase (.client c) (.sent r))) x = phaseAt s x) := by
    intro x q hx
    have hplace := hat x
    by_cases he : x = (i, .client c)
    · rw [if_pos he] at hplace
      rw [hplace] at hx
      exact .inl ⟨he, (Option.some.inj hx).symm⟩
    · rw [if_neg he] at hplace
      exact .inr ⟨he, hplace ▸ hx, hplace⟩
  exact {
    control := hcontrol
    ahead := fun j q hj => (hahead j q).trans (h.ahead j q hj)
    place := h.place
    nodup := h.nodup
    sent := fun x q hx => by
      obtain ⟨-, rfl⟩ | ⟨-, hx, -⟩ := hold x q hx
      · exact hid ▸ Nat.lt_succ_self _
      · exact Nat.lt_succ_of_lt (h.sent x q hx)
    below := fun q hq => Nat.lt_succ_of_lt (h.below q hq)
    once := fun x y q hx hy => by
      obtain ⟨hxe, rfl⟩ | ⟨hxe, hxr, hxs⟩ := hold x q hx.1 <;>
        obtain ⟨hye, hq⟩ | ⟨hye, hyr, hys⟩ := hold y q hy.1
      · exact hxe.trans hye.symm
      · exact absurd hyr (hnew y)
      · exact absurd (hq ▸ hxr) (hnew x)
      · exact h.once x y q (hxs ▸ hx) (hys ▸ hy)
    early := fun x q hx => by
      obtain ⟨-, rfl⟩ | ⟨-, -, hxs⟩ := hold x q hx.1.1
      · intro hmem
        have hlt := h.below q hmem
        omega
      · exact h.early x q (hxs ▸ hx)
    done := fun x q m hx => by
      obtain ⟨he, rfl⟩ | ⟨-, -, hxs⟩ := hold x q (executed_request hx)
      · have hplace := hat x
        rw [if_pos he] at hplace
        have hx : (phaseAt (s.set i ((s.srv i).setPhase (.client c) (.sent q))) x).executed =
          some (q, m) := hx
        rw [hplace] at hx
        cases hx
      · exact h.done x q m (hxs ▸ hx)
    lists := fun j hj => by
      have hsame := set_list s (i := i) (u := (s.srv i).setPhase (.client c) (.sent r)) rfl j
      exact (congrArg models hsame).trans (h.lists j hj) }

/-- What a step leaves of the requests when thread `c` of server `i` executes one. -/
structure Executes (s s' : Chain) (i : Nat) (c : Conn) (r : Request) : Prop where
  request : ∀ x q, (phaseAt s' x).request = some q → (phaseAt s x).request = some q
  active : ∀ x q, Active (phaseAt s' x) q → Active (phaseAt s x) q
  early : ∀ x q, Early (phaseAt s' x) q → x ≠ (i, c) ∧ Early (phaseAt s x) q
  executed : ∀ x q m, (phaseAt s' x).executed = some (q, m) →
    (x = (i, c) ∧ q = r) ∨ (phaseAt s x).executed = some (q, m)

theorem executes_invoke {i : Nat} {c : Conn} {r : Request}
    (hs : step n t s (.invoke i c r) = some s') : Executes s s' i c r := by
  obtain ⟨rc, hp, rfl⟩ := ChainSystem.step_invoke.mp hs
  obtain ⟨hreq, hwait⟩ := invoke_place hp
  have hact : Active (phaseAt s (i, c)) r := ⟨hreq, hwait r⟩
  have hat := at_set (s := s) (i := i) (c := c)
    (u := { (s.srv i).setPhase c (.invoked r (afterForward t rc r.msg (s.srv i).list).1) with
      list := (afterForward t rc r.msg (s.srv i).list).2 }) rfl
  refine ⟨fun x q hx => ?_, fun x q hx => ?_, fun x q hx => ?_, fun x q m hx => ?_⟩
  · rw [hat] at hx
    split at hx
    next he =>
      obtain rfl : r = q := Option.some.inj hx
      exact he ▸ hreq
    next => exact hx
  · rw [hat] at hx
    split at hx
    next he =>
      obtain rfl : r = q := Option.some.inj hx.1
      exact he ▸ hact
    next => exact hx
  · rw [hat] at hx
    split at hx
    next => cases hx.2.1
    next he => exact ⟨he, hx⟩
  · rw [hat] at hx
    split at hx
    next he => exact .inl ⟨he, (Prod.mk.inj (Option.some.inj hx)).1.symm⟩
    next => exact .inr hx

theorem ordered_read {i : Nat} {c : Conn} {r : Request} (h : Ordered n t list s log)
    (hs : step n t s (.invoke i c r) = some s') (hr : needsForward r.msg = false) :
    Ordered n t list s' log := by
  have hframe := executes_invoke hs
  have hwrite : writeOf (.invoke i c r) = none := by simp [writeOf, hr]
  have hcontrol := control_step h.control (l := .invoke i c r) trivial hs
  have hahead := ahead_step h.control hs hwrite
  obtain ⟨rc, hp, rfl⟩ := ChainSystem.step_invoke.mp hs
  have hread : models (afterForward t rc r.msg (s.srv i).list).2 = models (s.srv i).list := by
    obtain ⟨-, -, rfl⟩ | hp := hp
    · have hcars := cars_after_read hr t (s.srv i).list
      rw [models_eq_map, models_eq_map]
      exact congrArg _ hcars
    · have hw := (h.control.locks i).writes c r (by rw [hp]; rfl)
      rw [hr] at hw
      cases hw
  exact {
    control := hcontrol
    ahead := fun j q hj => (hahead j q).trans (h.ahead j q hj)
    place := h.place
    nodup := h.nodup
    sent := fun x q hx => h.sent x q (hframe.request x q hx)
    below := h.below
    once := fun x y q hx hy => h.once x y q (hframe.active x q hx) (hframe.active y q hy)
    early := fun x q hx => h.early x q (hframe.early x q hx).2
    done := fun x q m hx hw => by
      obtain ⟨-, rfl⟩ | hx := hframe.executed x q m hx
      · rw [hr] at hw
        cases hw
      · exact h.done x q m hx hw
    lists := fun j hj => by
      rw [← h.lists j hj]
      exact forall_set (s := s) (i := i) (P := fun _ v w => models v.list = models w.list) hread
        (fun _ _ => rfl) j }

theorem log_step {i : Nat} {c : Conn} {r : Request} {rc : Int} (h : Ordered n t list s log)
    (hc : (s.srv i).phase c = .forwarded r rc) :
    execute n log (i, r) = some (log.reach i r) := by
  refine execute_eq_some.mpr ⟨?_, rfl⟩
  have hi : i < n := h.control.inside i c r (by rw [hc]; rfl)
  by_cases htail : i + 1 = n
  · refine .inl ⟨?_, htail⟩
    cases hpend : log.pending with
    | none => rfl
    | some e =>
      obtain ⟨k, q⟩ := e
      obtain ⟨hk, hkn⟩ := h.place k q hpend
      obtain ⟨k, rfl⟩ : ∃ j, k = j + 1 := ⟨k - 1, by omega⟩
      have hahead := (h.ahead k q hkn).mpr hpend
      exact absurd (by rw [hc]; rfl) (no_forward_below h.control hahead (by omega) c r)
  · have hnext : i + 1 < n := by omega
    have hrc := h.control.code i c r rc hc
    rw [if_pos hnext] at hrc
    exact .inr ((h.ahead i r hnext).mp (.inr ⟨c, hrc ▸ hc⟩))

theorem ordered_write {i : Nat} {c : Conn} {r : Request} (h : Ordered n t list s log)
    (hs : step n t s (.invoke i c r) = some s') (hr : needsForward r.msg = true) :
    execute n log (i, r) = some (log.reach i r) ∧
      Ordered n t list s' (log.reach i r) := by
  have hframe := executes_invoke hs
  have hcontrol := control_step h.control (l := .invoke i c r) trivial hs
  obtain ⟨rc, hp, rfl⟩ := ChainSystem.step_invoke.mp hs
  have hc : (s.srv i).phase c = .forwarded r rc := by
    obtain ⟨-, hn, -⟩ | hc := hp
    · rw [hr] at hn
      cases hn
    · exact hc
  have hstep := log_step h hc
  have hi : i < n := h.control.inside i c r (by rw [hc]; rfl)
  have hview : ∀ j, j < n → (log.reach i r).view j = log.view j ++ if i = j then [r] else [] :=
    fun j hj => (view_execute hstep hj).trans (congrArg (log.view j ++ ·) (own_single j (i, r)))
  have hserve : (afterForward t rc r.msg (s.srv i).list).2 = after t r.msg (s.srv i).list := by
    rw [h.control.code i c r rc hc]
    split <;> rfl
  have hact : Active (phaseAt s (i, c)) r := (invoke_place hp).imp_right fun hwait => hwait r
  -- the request is new to the log where the last server executes it
  have hall : (log.reach i r).all = log.all ∧ r ∈ log.all ∨
      (log.reach i r).all = log.all ++ [r] ∧ r ∉ log.all := by
    obtain ⟨hpend, hn⟩ | hpend := (execute_eq_some.mp hstep).1
    · have hearly := active_early (s := s) (i := i) hn (h.control.code i c r) (.inr hc)
      exact .inr ⟨all_start hpend i r, h.early (i, c) r hearly⟩
    · exact .inl ⟨all_pass hpend i, by rw [Log.all, hpend]; simp⟩
  have hmem : ∀ q ∈ (log.reach i r).all, q ∈ log.all ∨ q = r := fun q hq => by
    obtain ⟨he, -⟩ | ⟨he, -⟩ := hall
    · exact .inl (he ▸ hq)
    · rw [he, List.mem_append, List.mem_singleton] at hq
      exact hq
  refine ⟨hstep, ?_⟩
  exact {
    control := hcontrol
    ahead := fun j q hj => by
      rw [ahead_write h.control hc, h.ahead j q hj, log.pending_reach i r]
      have hpend : log.pending = some (j + 1, q) → j = i := fun hpend => by
        obtain ⟨hnone, -⟩ | hsome := (execute_eq_some.mp hstep).1
        · rw [hpend] at hnone
          cases hnone
        · rw [hpend] at hsome
          exact Nat.succ.inj (Prod.mk.inj (Option.some.inj hsome)).1
      constructor
      · rintro (⟨rfl, rfl⟩ | ⟨hne, -, hlog⟩)
        · rw [if_neg (by omega)]
        · exact absurd (hpend hlog) hne
      · intro hlog
        obtain ⟨-, hlog⟩ := Option.ite_none_left_eq_some.mp hlog
        obtain ⟨rfl, rfl⟩ := Prod.mk.inj (Option.some.inj hlog)
        exact .inl ⟨rfl, rfl⟩
    place := fun k q hlog => by
      rw [log.pending_reach i r] at hlog
      obtain ⟨hpos, hlog⟩ := Option.ite_none_left_eq_some.mp hlog
      obtain ⟨rfl, -⟩ := Prod.mk.inj (Option.some.inj hlog)
      exact ⟨by omega, hi⟩
    nodup := by
      obtain ⟨he, -⟩ | ⟨he, hnew⟩ := hall
      · exact he ▸ h.nodup
      · rw [he]
        exact List.nodup_append.mpr ⟨h.nodup, List.nodup_singleton r, by
          rintro a ha b hb rfl
          exact hnew (List.mem_singleton.mp hb ▸ ha)⟩
    sent := fun x q hx => h.sent x q (hframe.request x q hx)
    below := fun q hq => (hmem q hq).elim (h.below q) fun he => he ▸ h.sent (i, c) r hact.1
    once := fun x y q hx hy => h.once x y q (hframe.active x q hx) (hframe.active y q hy)
    early := fun x q hx hq => by
      obtain ⟨hxc, hold⟩ := hframe.early x q hx
      obtain hq | rfl := hmem q hq
      · exact h.early x q hold hq
      · exact hxc (h.once x (i, c) q hold.1 hact)
    done := fun x q m hx hw => by
      have hxn : x.1 < n := by
        have hreq := hframe.request x q (executed_request hx)
        exact h.control.inside x.1 x.2 q hreq
      rw [hview x.1 hxn, List.mem_append]
      obtain ⟨rfl, rfl⟩ | hx := hframe.executed x q m hx
      · exact .inr (by simp)
      · exact .inl (h.done x q m hx hw)
    lists := fun j hj => by
      rw [hview j hj]
      by_cases hji : j = i
      · subst hji
        rw [set_self, hserve, if_pos rfl, executeAll, List.foldl_append]
        exact models_after_congr r.msg t (h.lists j hj)
      · rw [set_ne _ _ hji, if_neg (Ne.symm hji), List.append_nil]
        exact h.lists j hj }

/-- A step is one of the log's steps if it executes a write, and none otherwise. -/
theorem ordered_step (h : Ordered n t list s log) (hl : WritesAtHead l)
    (hs : step n t s l = some s') :
    ∃ log', run (execute n) log (writeOf l).toList = some log' ∧ Ordered n t list s' log' := by
  cases l with
  | send i c r => exact ⟨log, rfl, ordered_send h hl hs⟩
  | own i a =>
    refine ⟨log, rfl, ?_⟩
    have hmoves := moves_own hs
    obtain ⟨ha, u, hu, rfl⟩ := step_own.mp hs
    exact ordered_moves h hl hs hmoves rfl rfl fun j => set_list s (own_frame ha hu).1 j
  | forward i c =>
    refine ⟨log, rfl, ?_⟩
    have hmoves := moves_forward h.control hs
    obtain ⟨r, -, -, -, rfl⟩ := ChainSystem.step_forward.mp hs
    exact ordered_moves h hl hs hmoves rfl rfl fun j =>
      (set_list _ (by simp) j).trans (set_list s (by rfl) j)
  | back i c =>
    refine ⟨log, rfl, ?_⟩
    have hmoves := moves_back h.control hs
    obtain ⟨r, r', m, -, -, rfl⟩ := ChainSystem.step_back.mp hs
    exact ordered_moves h hl hs hmoves rfl rfl fun j =>
      (set_list _ (by simp) j).trans (set_list s (by rfl) j)
  | invoke i c r =>
    cases hr : needsForward r.msg with
    | false => exact ⟨log, by simp [writeOf, hr, run], ordered_read h hs hr⟩
    | true =>
      obtain ⟨hstep, hnext⟩ := ordered_write h hs hr
      exact ⟨log.reach i r, by simp [writeOf, hr, run, hstep], hnext⟩
  | answer i c r m =>
    refine ⟨log, rfl, ?_⟩
    have hmoves := moves_answer hs
    obtain ⟨-, rfl⟩ := step_answer.mp hs
    exact ordered_moves h hl hs hmoves rfl rfl fun j => set_list s (by rfl) j

/-- The log has the writes that have been answered, on every server. -/
structure Recorded (n : Nat) (t : AnoAtual) (list : ListT) (ls : List Label) (s : Chain)
    (log : Log Request) : Prop where
  run : run (execute n) Log.empty (executions ls) = some log
  ordered : Ordered n t list s log
  answered : ∀ i c r m, Label.answer i c r m ∈ ls → needsForward r.msg = true →
    ∀ j, j < n → r ∈ log.view j

theorem recorded_step {ls : List Label} (h : Recorded n t list ls s log) (hl : WritesAtHead l)
    (hs : step n t s l = some s') : ∃ log', Recorded n t list (ls ++ [l]) s' log' := by
  obtain ⟨log', hrun, hordered⟩ := ordered_step h.ordered hl hs
  refine ⟨log', ?_, hordered, fun i c r m hans hw j hj => ?_⟩
  · have hexec : executions (ls ++ [l]) = executions ls ++ (writeOf l).toList := by
      rw [executions, List.filterMap_append]
      cases hwrite : writeOf l <;> simp [executions, hwrite]
    rw [hexec, run_append, h.run]
    exact hrun
  · rw [view_run hrun hj]
    obtain hold | hnew := List.mem_append.mp hans
    · exact List.mem_append_left _ (h.answered i c r m hold hw j hj)
    · obtain rfl := List.mem_singleton.mp hnew
      obtain ⟨hp, -⟩ := step_answer.mp hs
      obtain rfl := h.ordered.control.entry i (.client c) r (by rw [hp]; rfl) nofun hw
      have hdone := h.ordered.done (0, .client c) r m (by rw [phaseAt, hp]; rfl) hw
      exact List.mem_append_left _ (mem_view_le (Nat.zero_le j) hdone)

/-- Every run of the chain is one of a log. -/
theorem exists_recorded {ls : List Label} (hhead : ∀ l ∈ ls, WritesAtHead l)
    (hrun : run (step n t) (Chain.start n list) ls = some s) :
    ∃ log, Recorded n t list ls s log := by
  have hstart : ∃ log, Recorded n t list [] (Chain.start n list) log :=
    ⟨Log.empty, rfl, ordered_start n t list, fun _ _ _ _ hans => absurd hans List.not_mem_nil⟩
  exact run_trace_invariant (step n t) (G := fun _ => WritesAtHead)
    (I := fun ls s => ∃ log, Recorded n t list ls s log)
    (fun _ _ _ _ ⟨_, h⟩ hl hs => recorded_step h hl hs) [] hstart
    (meets_of_labels _ hhead _) hrun

theorem view_eq_writesAt {ls : List Label} {i : Nat} (h : Recorded n t list ls s log) (hi : i < n) :
    log.view i = writesAt i ls := by
  rw [view_run h.run hi]
  rfl

theorem pending_of_quiet (h : Ordered n t list s log) (hq : Quiet s) : log.pending = none := by
  cases hp : log.pending with
  | none => rfl
  | some e =>
    obtain ⟨k, r⟩ := e
    obtain ⟨hk, hkn⟩ := h.place k r hp
    obtain ⟨k, rfl⟩ : ∃ j, k = j + 1 := ⟨k - 1, by omega⟩
    exact absurd ((h.ahead k r hkn).mpr hp) (not_ahead_of_quiet h.control hq k r)

end Order

structure OneOrder (n : Nat) (t : AnoAtual) (list : ListT) (ls : List Label) (s : Chain) :
    Prop where
  log : ∃ log, run (execute n) Log.empty (executions ls) = some log
  behind : ∀ i j, i ≤ j → j < n →
    writesAt j ls = writesAt i ls ∨ ∃ r, writesAt j ls = writesAt i ls ++ [r]
  once : ∀ i, i < n → (writesAt i ls).Nodup
  answered : ∀ i c r m, Label.answer i c r m ∈ ls → needsForward r.msg = true →
    ∀ j, j < n → r ∈ writesAt j ls
  level : Quiet s → ∀ i j, i < n → j < n → writesAt i ls = writesAt j ls
  lists : ∀ i, i < n → models (s.srv i).list = models (executeAll t list (writesAt i ls))

/-- In every run of a stable chain all servers execute the same writes in the
same order, each of them once: none is more than one write behind the servers
further down, and a write that has been answered is on every server. -/
theorem writes_in_one_order (n : Nat) (list : ListT) (t : AnoAtual) (ls : List Label) (s : Chain)
    (hhead : ∀ l ∈ ls, WritesAtHead l) (hrun : run (step n t) (Chain.start n list) ls = some s) :
    OneOrder n t list ls s := by
  obtain ⟨log, h⟩ := exists_recorded hhead hrun
  have hview := fun i => view_eq_writesAt (i := i) h
  refine ⟨⟨log, h.run⟩, fun i j hij hj => ?_, fun i hi => ?_, fun i c r m hans hw j hj => ?_,
    fun hq i j hi hj => ?_, fun i hi => ?_⟩
  · rw [← hview i (by omega), ← hview j hj]
    obtain he | ⟨k, r, -, -, -, he⟩ := view_le (s := log) hij
    · exact .inl he
    · exact .inr ⟨r, he⟩
  · rw [← hview i hi]
    exact (view_sublist log i).nodup h.ordered.nodup
  · rw [← hview j hj]
    exact h.answered i c r m hans hw j hj
  · have hpend := pending_of_quiet h.ordered hq
    rw [← hview i hi, ← hview j hj, view_none hpend, view_none hpend]
  · rw [← hview i hi]
    exact h.ordered.lists i hi

theorem writes_in_one_order_addition :
    ∃ s, run (step 2 (.same 2026)) (Chain.start 2 listCreate) (addThenSize.take 10) = some s ∧
      writesAt 1 (addThenSize.take 10) = [⟨0, toyotaRequest 2020⟩] ∧
      writesAt 0 (addThenSize.take 10) = [] ∧
      OneOrder 2 (.same 2026) listCreate (addThenSize.take 10) s := by
  have hrun : (run (step 2 (.same 2026)) (Chain.start 2 listCreate)
    (addThenSize.take 10)).isSome := by decide
  obtain ⟨s, hs⟩ := Option.isSome_iff_exists.mp hrun
  exact ⟨s, hs, by decide, by decide,
    writes_in_one_order 2 listCreate (.same 2026) (addThenSize.take 10) s (by decide) hs⟩

end ListServer.WriteOrder
