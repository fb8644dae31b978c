import ListServer.ChainPairs
import ListServer.ClientStub

namespace ListServer.Agreement

open Lib.CTypes CarData CarList Message Skeleton ClientThread ChainSystem ChainControl ChainPairs
open ClientStub Lib.Transition

variable {n : Nat} {t : AnoAtual} {s s' : Chain}

/-- No write is between the head's forward and its execution there. -/
def Quiet (s : Chain) : Prop := ∀ c r, ((s.srv 0).phase c).forwards ≠ some r

/-- The removal takes the car that was chosen for it, or none if none was. -/
def Finds (choice : Nat → Option DataT) (r : Request) (list : ListT) : Prop :=
  r.msg.opcode = opDel → ∀ m ∈ target r.msg, firstOf m list = choice r.id

/-- What is asked of the steps: writes go to the head, and a removal finds the
same car on every server. -/
def SameFirst (choice : Nat → Option DataT) (s : Chain) : Label → Prop
  | .invoke i _ r => Finds choice r (s.srv i).list
  | l => WritesAtHead l

instance (choice : Nat → Option DataT) (r : Request) (list : ListT) :
    Decidable (Finds choice r list) :=
  inferInstanceAs (Decidable (_ → ∀ m ∈ target r.msg, firstOf m list = choice r.id))

instance (choice : Nat → Option DataT) (s : Chain) : DecidablePred (SameFirst choice s)
  | .invoke i _ r => inferInstanceAs (Decidable (Finds choice r (s.srv i).list))
  | .send i c r => inferInstanceAs (Decidable (WritesAtHead (.send i c r)))
  | .own .. | .forward .. | .back .. | .answer .. => isTrue trivial

theorem SameFirst.writesAtHead {choice : Nat → Option DataT} {l : Label}
    (h : SameFirst choice s l) : WritesAtHead l := by
  cases l with
  | invoke => trivial
  | _ => exact h

structure Agree (n : Nat) (t : AnoAtual) (choice : Nat → Option DataT) (s : Chain) : Prop where
  control : Control n s
  pairs : Pairs t cars n (Finds choice) s

theorem agree_step {choice : Nat → Option DataT} {l : Label} (h : Agree n t choice s)
    (hg : SameFirst choice s l) (hs : step n t s l = some s') : Agree n t choice s' := by
  refine ⟨control_step h.control hg.writesAtHead hs, ?_⟩
  refine pairs_step h.control h.pairs (fun msg list hr => cars_after_read hr t list)
    (fun r l l' hl hf hf' => ?_) (fun _ _ hf => hf) (fun i c r he _ => by cases he; exact hg) hs
  exact cars_after_congr t hl fun hd m hm => (hf hd m hm).trans (hf' hd m hm).symm

theorem quiet_below (h : Control n s) (hq : Quiet s) (i : Nat) (c : Conn) (r : Request) :
    ((s.srv i).phase c).forwards ≠ some r := by
  induction i generalizing c r with
  | zero => exact hq c r
  | succ i ih =>
    intro hf
    have hw := (h.locks (i + 1)).writes c r hf
    have hreq := forwards_request hf
    obtain rfl := h.write_pred hreq hw
    obtain ⟨d, hd⟩ := (h.link i r).mp hreq
    exact ih d r (by simp [hd, Phase.forwards])

theorem not_ahead_of_quiet (h : Control n s) (hq : Quiet s) (i : Nat) (r : Request) :
    ¬ Ahead s i r := by
  rintro (⟨m, hm⟩ | ⟨c, hc⟩)
  · obtain ⟨d, hd⟩ := (h.link i r).mp (executed_request hm)
    exact quiet_below h hq i d r (by simp [hd, Phase.forwards])
  · exact quiet_below h hq i c r (by simp [hc, Phase.forwards])

theorem Agree.cars_head {choice : Nat → Option DataT} (h : Agree n t choice s) (hq : Quiet s)
    {i : Nat} (hi : i < n) : cars (s.srv i).list = cars (s.srv 0).list := by
  induction i with
  | zero => rfl
  | succ i ih =>
    have hl := (h.pairs i hi).level (not_ahead_of_quiet h.control hq i)
    exact hl.symm.trans (ih (by omega))

/-- As long as every removal finds the same first car of its model on every
server, the servers hold the same cars whenever no write is in progress. -/
theorem cars_agree (n : Nat) (ano : Int) (list : ListT) (choice : Nat → Option DataT)
    (ls : List Label) (s : Chain)
    (hsame : Meets (step n (.same ano)) (SameFirst choice) (Chain.start n list) ls)
    (hrun : run (step n (.same ano)) (Chain.start n list) ls = some s) (hq : Quiet s)
    (i j : Nat) (hi : i < n) (hj : j < n) : cars (s.srv i).list = cars (s.srv j).list := by
  have hstart : Agree n (.same ano) choice (Chain.start n list) :=
    ⟨control_start n list, pairs_start n list _⟩
  have h := run_invariant (step n (.same ano)) (fun s l u ha hg hs => agree_step ha hg hs)
    hstart hsame hrun
  exact (h.cars_head hq hi).trans (h.cars_head hq hj).symm

/-- The head forwards nothing while nobody holds its `lock_list`. -/
theorem quiet_of_lockList (h : (s.srv 0).Locks) (hl : (s.srv 0).lockList = none) : Quiet s := by
  intro c r hf
  have hlock := (h.list c).mp (holdsList_of_forwards hf)
  rw [hl] at hlock
  cases hlock

theorem quiet_of_run {list : ListT} {ls : List Label} (hw : ∀ l ∈ ls, WritesAtHead l)
    (hrun : run (step n t) (Chain.start n list) ls = some s) (hl : (s.srv 0).lockList = none) :
    Quiet s := by
  have h := run_invariant (step n t) (fun _ _ _ hc hg hs => control_step hc hg hs)
    (control_start n list) (meets_of_labels _ hw _) hrun
  exact quiet_of_lockList (h.locks 0) hl

def toyotas : ListT := ⟨2, [toyota 2020, toyota 2010]⟩

def removeToyota : MessageT := rlistRemoveByModelRequest (toyota 0).modelo

def removal (k : Nat) : List Label :=
  writeSteps 0 ⟨k, removeToyota⟩ (Skeleton.MessageT.deleted removeToyota 0)

theorem cars_agree_removal :
    ∃ s, run (step 2 (.same 2026)) (Chain.start 2 toyotas) (removal 0) = some s ∧
      cars (s.srv 0).list = cars (s.srv 1).list := by
  obtain ⟨s, hs, hl⟩ := Option.map_eq_some_iff.mp (show (run (step 2 (.same 2026))
    (Chain.start 2 toyotas) (removal 0)).map (fun s => (s.srv 0).lockList) = some none by decide)
  have hq : Quiet s := quiet_of_run (by decide) hs hl
  exact ⟨s, hs, cars_agree 2 2026 toyotas (fun _ => some (toyota 2020)) (removal 0) s (by decide)
    hs hq 0 1 (by decide) (by decide)⟩

def orderThenRemove : List Label :=
  readSteps 1 0 ⟨0, rlistOrderByYearRequest⟩ { rlistOrderByYearRequest with
    opcode := opGetListByYear + 1, cType := ctList, nCars := 2,
    cars := [toyotaData 2010, toyotaData 2020] } ++ removal 1

theorem cars_disagree :
    (∀ l ∈ orderThenRemove, WritesAtHead l) ∧
    ∃ s, run (step 2 (.same 2026)) (Chain.start 2 toyotas) orderThenRemove = some s ∧ Quiet s ∧
      cars (s.srv 0).list ≠ cars (s.srv 1).list := by
  have hw : ∀ l ∈ orderThenRemove, WritesAtHead l := by decide
  obtain ⟨s, hs, hl⟩ := Option.map_eq_some_iff.mp (show (run (step 2 (.same 2026))
    (Chain.start 2 toyotas) orderThenRemove).map (fun s =>
      ((s.srv 0).lockList, (s.srv 0).list, (s.srv 1).list)) =
    some (none, ⟨1, [toyota 2010]⟩, ⟨1, [toyota 2020]⟩) by decide)
  simp only [Prod.mk.injEq] at hl
  refine ⟨hw, s, hs, quiet_of_run hw hs hl.1, ?_⟩
  rw [hl.2.1, hl.2.2]
  decide

end ListServer.Agreement
