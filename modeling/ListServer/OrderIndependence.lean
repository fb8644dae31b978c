import ListServer.Skeleton
import ListServer.Lib.TwoRuns

namespace ListServer.OrderIndependence

open Lib.TwoRuns CarList Message Skeleton

/-- A request, with the readings of the clock while it is served. -/
structure Asked where
  t : AnoAtual
  msg : MessageT

/-- An `OP_GETLISTBYTEAR` that asks for the order. -/
def Orders (r : Asked) : Prop := r.msg.opcode = opGetListByYear ∧ r.msg.result = -1

def answer (list : ListT) (r : Asked) : MessageT × ListT := serve r.t r.msg list

/-- The replies to additions, removals and size queries are equal, and those to
a query for the models hold the same models, whatever their order. -/
structure Agree (r : Asked) (m m' : MessageT) : Prop where
  equal : r.msg.opcode = opAdd ∨ r.msg.opcode = opDel ∨ r.msg.opcode = opSize → m = m'
  models : r.msg.opcode = opGetModels →
    (m.models : Multiset Lib.CTypes.CString) = m'.models ∧ m.nModels = m'.nModels

/-- The lists have the same models, each as often, and the same counter. -/
structure SameModels (l l' : ListT) : Prop where
  size : l.size = l'.size
  models : models l = models l'

variable {l l' : ListT}

theorem size_after_congr (t : AnoAtual) (msg : MessageT) (h : SameModels l l') :
    (after t msg l).size = (after t msg l').size := by
  by_cases ha : msg.opcode = opAdd
  · rw [after_add ha, after_add ha]
    cases accepted t msg with
    | none => exact h.size
    | some car => exact congrArg (· + 1) h.size
  by_cases hd : msg.opcode = opDel
  · rw [after_del hd, after_del hd]
    cases target msg with
    | none => exact h.size
    | some m =>
      have hsize : ∀ list : ListT, (listRemoveByModel list (some m)).2.size =
          if m ∈ models list then list.size - 1 else list.size := fun list => by
        cases hu : unlink m list.head with
        | none =>
          have hm : m ∉ models list := unlink_eq_none.mp hu
          rw [if_neg hm, listRemoveByModel, hu]
        | some head =>
          have hm : m ∈ models list := by
            by_contra hm
            rw [unlink_eq_none.mpr hm] at hu
            cases hu
          rw [if_pos hm, listRemoveByModel, hu]
      have h1 := hsize l
      have h2 := hsize l'
      rw [h.models, h.size] at h1
      exact h1.trans h2.symm
  · rw [after_read ha hd, after_read ha hd]
    split <;> exact h.size

theorem sameModels_after (t : AnoAtual) (msg : MessageT) (h : SameModels l l') :
    SameModels (after t msg l) (after t msg l') :=
  ⟨size_after_congr t msg h, models_after_congr msg t h.models⟩

theorem SameModels.trans {l l' l'' : ListT} (h : SameModels l l') (h' : SameModels l' l'') :
    SameModels l l'' := ⟨h.size.trans h'.size, h.models.trans h'.models⟩

theorem SameModels.symm {l l' : ListT} (h : SameModels l l') : SameModels l' l :=
  ⟨h.size.symm, h.models.symm⟩

theorem sameModels_read {msg : MessageT} (ha : msg.opcode ≠ opAdd) (hd : msg.opcode ≠ opDel)
    (t : AnoAtual) (l : ListT) : SameModels (after t msg l) l := by
  refine ⟨?_, ?_⟩
  · rw [after_read ha hd]
    split <;> rfl
  · rw [models_eq_map, models_eq_map, cars_after_of_not_write ha hd]

theorem sameModels_order {r : Asked} (hr : Orders r) (h : SameModels l l') :
    SameModels (after r.t r.msg l) l' := by
  have hadd : opGetListByYear ≠ opAdd := by decide
  have hdel : opGetListByYear ≠ opDel := by decide
  rw [← hr.1] at hadd hdel
  have hif : r.msg.opcode = opGetListByYear ∧ r.msg.result = -1 := hr
  rw [after_read hadd hdel, if_pos hif]
  refine ⟨h.size, ?_⟩
  rw [← h.models]
  exact Multiset.coe_eq_coe.mpr ((listOrderByYear_perm l).map _)

theorem agree_reply (r : Asked) (h : SameModels l l') :
    Agree r (reply r.t r.msg l) (reply r.t r.msg l') := by
  have hsize : listSize l = listSize l' := h.size
  refine ⟨fun hop => ?_, fun hop => ?_⟩
  · obtain ha | hd | hs := hop
    · exact reply_congr (by rw [ha]; decide) r.t h.models
    · exact reply_congr (by rw [hd]; decide) r.t h.models
    · have hinv : ∀ list, reply r.t r.msg list = (invokeSize r.msg list).2.1 := fun list => by
        rw [reply, serve, invoke, if_pos hs]
      rw [hinv, hinv, invokeSize, invokeSize, hsize]
      split <;> rfl
  · have hinv : ∀ list, reply r.t r.msg list = (invokeGetModels r.msg list).2.1 := fun list => by
      rw [reply, serve, invoke, hop]
      rfl
    rw [hinv, hinv]
    exact ⟨h.models, congrArg toSizeT hsize⟩

/-- Leaving out requests for the order changes no reply to an addition, a
removal or a size query, and no models. -/
theorem orders_irrelevant (list : ListT) (rs : List (Input Orders)) :
    List.Forall₂ (fun p q => p.1 = q.1 ∧ Agree p.1 p.2 q.2)
      (atBoth rs (outputs answer list (rs.map Input.label)))
      (outputs answer list (rs.filterMap Input.second)) :=
  outputs_related (R := SameModels) (fun _ _ r h => ⟨agree_reply r h, sameModels_after r.t r.msg h⟩)
    (fun _ _ _ hr h => sameModels_order hr h) ⟨rfl, rfl⟩ rs

end ListServer.OrderIndependence
