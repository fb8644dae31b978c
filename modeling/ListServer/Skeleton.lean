import ListServer.CarList
import ListServer.Message
import Mathlib.Data.Multiset.MapFold

namespace ListServer.Skeleton

open Lib.CTypes CarData CarList Message

/-- The two readings of `ano_atual` while one car is added: in `data_create`
and in the `data_dup` of `list_add`. -/
structure AnoAtual where
  create : Int
  dup : Int
deriving DecidableEq, Repr

def AnoAtual.same (ano : Int) : AnoAtual := ⟨ano, ano⟩

def dataToProtobuf (car : DataT) : Data :=
  ⟨car.ano, car.preco, car.marca, some car.modelo, car.combustivel⟩

theorem dataToProtobuf_injective : Function.Injective dataToProtobuf := by
  intro a b h
  cases a; cases b
  simpa [dataToProtobuf] using h

def dataArrayToProtobufArray (cars : List DataT) : List Data × Nat :=
  (cars.map dataToProtobuf, cars.length)

def invokeSize (msg : MessageT) (list : ListT) : Int × MessageT × ListT :=
  let msg := { msg with result := listSize list }
  if msg.result = -1 then (-1, { msg with opcode := opError, cType := ctNone }, list)
  else (0, { msg with opcode := msg.opcode + 1, cType := ctResult }, list)

def invokeAdd (t : AnoAtual) (msg : MessageT) (list : ListT) : Int × MessageT × ListT :=
  match msg.data with
  | none => (-1, msg.error, list)
  | some d =>
    match dataCreate t.create d.ano d.preco d.marca d.modelo d.combustivel with
    | none => (-1, msg.error, list)
    | some car =>
      let (res, list) := listAdd t.dup list car
      if res = 0 then
        (0, { msg with opcode := msg.opcode + 1, cType := ctNone, result := 0 }, list)
      else (0, msg.error, list)

def invokeGet (msg : MessageT) (list : ListT) : Int × MessageT × ListT :=
  if msg.cType = ctMarca then
    match listGetByMarca list msg.result with
    | none => (0, msg.error, list)
    | some car =>
      (0, { msg with
        data := some (dataToProtobuf car), opcode := msg.opcode + 1, cType := ctData }, list)
  else (0, msg, list)

def invokeGetListByYear (msg : MessageT) (list : ListT) : Int × MessageT × ListT :=
  if msg.result ≠ -1 then
    let (cars, n) := dataArrayToProtobufArray (listGetByYear list msg.result)
    (0, { msg with cars := cars, nCars := n, opcode := msg.opcode + 1, cType := ctList }, list)
  else
    let list := listOrderByYear list
    let (cars, n) := dataArrayToProtobufArray (listGetAll list)
    (0, { msg with cars := cars, nCars := n, opcode := msg.opcode + 1, cType := ctList }, list)

def invokeGetModels (msg : MessageT) (list : ListT) : Int × MessageT × ListT :=
  (0, { msg with
    models := listGetModelList list, nModels := toSizeT (listSize list),
    opcode := msg.opcode + 1, cType := ctModel }, list)

def invokeDel (msg : MessageT) (list : ListT) : Int × MessageT × ListT :=
  if msg.nModels ≠ 1 then (0, msg.error, list)
  else
    let (res, list) := listRemoveByModel list msg.models.head?
    (0, { msg with opcode := msg.opcode + 1, cType := ctResult, result := res }, list)

/-- The return code, the message rewritten into the reply, and the list. All of
its `malloc` and `strdup` succeed. -/
def invoke (t : AnoAtual) (msg : MessageT) (list : ListT) : Int × MessageT × ListT :=
  if msg.opcode = opSize then invokeSize msg list
  else if msg.opcode = opAdd then invokeAdd t msg list
  else if msg.opcode = opGet then invokeGet msg list
  else if msg.opcode = opGetListByYear then invokeGetListByYear msg list
  else if msg.opcode = opGetModels then invokeGetModels msg list
  else if msg.opcode = opDel then invokeDel msg list
  else (0, msg.error, list)

/-- The reply of `invoke` and the list it leaves, for callers that do not
look at the return code. -/
def serve (t : AnoAtual) (msg : MessageT) (list : ListT) : MessageT × ListT := (invoke t msg list).2

def reply (t : AnoAtual) (msg : MessageT) (list : ListT) : MessageT := (serve t msg list).1

def after (t : AnoAtual) (msg : MessageT) (list : ListT) : ListT := (serve t msg list).2

/-- The car that an `OP_ADD` request stores, if both validations accept it. -/
def accepted (t : AnoAtual) (msg : MessageT) : Option DataT :=
  msg.data.bind fun d =>
    (dataCreate t.create d.ano d.preco d.marca d.modelo d.combustivel).bind (dataDup t.dup)

/-- The model that an `OP_DEL` request removes, if the request is well formed. -/
def target (msg : MessageT) : Option CString :=
  if msg.nModels = 1 then msg.models.head? else none

def MessageT.added (msg : MessageT) : MessageT :=
  { msg with opcode := opAdd + 1, cType := ctNone, result := 0 }

def MessageT.deleted (msg : MessageT) (res : Int) : MessageT :=
  { msg with opcode := opDel + 1, cType := ctResult, result := res }

theorem serve_add {msg : MessageT} (h : msg.opcode = opAdd) (t : AnoAtual) (list : ListT) :
    serve t msg list = match accepted t msg with
      | none => (msg.error, list)
      | some car => (MessageT.added msg, ⟨list.size + 1, list.head ++ [car]⟩) := by
  have hs : ¬ opAdd = opSize := by decide
  simp only [serve, invoke, h, if_neg hs, if_true, invokeAdd, accepted]
  cases hd : msg.data with
  | none => rfl
  | some d =>
    cases hc : dataCreate t.create d.ano d.preco d.marca d.modelo d.combustivel with
    | none => simp [hc]
    | some car => cases hu : dataDup t.dup car <;> simp [hc, hu, hd, listAdd, MessageT.added]

theorem serve_del {msg : MessageT} (h : msg.opcode = opDel) (t : AnoAtual) (list : ListT) :
    serve t msg list = if msg.nModels ≠ 1 then (msg.error, list)
      else (MessageT.deleted msg (listRemoveByModel list msg.models.head?).1,
        (listRemoveByModel list msg.models.head?).2) := by
  have hs : ¬ opDel = opSize ∧ ¬ opDel = opAdd ∧ ¬ opDel = opGet ∧ ¬ opDel = opGetListByYear ∧
    ¬ opDel = opGetModels := by decide
  simp only [serve, invoke, h, if_neg hs.1, if_neg hs.2.1, if_neg hs.2.2.1, if_neg hs.2.2.2.1,
    if_neg hs.2.2.2.2, if_true, invokeDel]
  by_cases hn : msg.nModels = 1 <;> simp [hn, MessageT.deleted]

theorem serve_other {msg : MessageT}
    (h : msg.opcode ∉ [opSize, opAdd, opGet, opGetListByYear, opGetModels, opDel])
    (t : AnoAtual) (list : ListT) : serve t msg list = (msg.error, list) := by
  simp only [List.mem_cons, List.not_mem_nil, or_false, not_or] at h
  simp [serve, invoke, h]

def cars (list : ListT) : Multiset DataT := list.head

def models (list : ListT) : Multiset CString := (list.head.map DataT.modelo : List CString)

theorem models_eq_map (list : ListT) : models list = (cars list).map DataT.modelo := by
  simp [models, cars]

theorem after_add {msg : MessageT} (h : msg.opcode = opAdd) (t : AnoAtual) (list : ListT) :
    after t msg list = match accepted t msg with
      | none => list
      | some car => ⟨list.size + 1, list.head ++ [car]⟩ := by
  simp only [after, serve_add h]
  cases accepted t msg <;> rfl

theorem after_del {msg : MessageT} (h : msg.opcode = opDel) (t : AnoAtual) (list : ListT) :
    after t msg list = match target msg with
      | none => list
      | some modelo => (listRemoveByModel list (some modelo)).2 := by
  simp only [after, serve_del h]
  by_cases hn : msg.nModels = 1
  · simp only [target, hn, if_true, ne_eq, not_true, if_false]
    cases msg.models.head? <;> rfl
  · simp [target, hn]

/-- A request that is neither an addition nor a removal orders the list, if it
does anything. -/
theorem after_read {msg : MessageT} (ha : msg.opcode ≠ opAdd) (hd : msg.opcode ≠ opDel)
    (t : AnoAtual) (list : ListT) : after t msg list =
      if msg.opcode = opGetListByYear ∧ msg.result = -1 then listOrderByYear list else list := by
  have hne : opGetListByYear ≠ opSize ∧ opGetListByYear ≠ opGet := by decide
  by_cases hy : msg.opcode = opGetListByYear
  · rw [hy] at ha
    simp only [after, serve, invoke, hy, hne.1, hne.2, ha, if_false, if_true, invokeGetListByYear,
      true_and]
    by_cases hr : msg.result = -1 <;> simp [hr]
  · simp only [after, serve, invoke, ha, hd, hy, if_false, false_and]
    split
    · simp only [invokeSize]
      split <;> rfl
    split
    · simp only [invokeGet]
      split
      · cases listGetByMarca list msg.result <;> rfl
      · rfl
    split <;> rfl

theorem cars_after_of_not_write {msg : MessageT} (ha : msg.opcode ≠ opAdd)
    (hd : msg.opcode ≠ opDel) (t : AnoAtual) (list : ListT) :
    cars (after t msg list) = cars list := by
  rw [after_read ha hd]
  split
  · exact Multiset.coe_eq_coe.mpr (listOrderByYear_perm list)
  · rfl

theorem cars_after_add {msg : MessageT} (h : msg.opcode = opAdd) (t : AnoAtual) (list : ListT) :
    cars (after t msg list) = cars list + ((accepted t msg).toList : Multiset DataT) := by
  rw [after_add h]
  cases accepted t msg with
  | none => simp [cars]
  | some car => simp [cars, ← Multiset.coe_add]

theorem remove_none {modelo : CString} {list : ListT} (h : firstOf modelo list = none) :
    listRemoveByModel list (some modelo) = (1, list) := by
  have hu : unlink modelo list.head = none := by
    rw [unlink_eq_none]
    simpa [firstOf] using h
  simp [listRemoveByModel, hu]

theorem remove_some {modelo : CString} {list : ListT} {data : DataT}
    (h : firstOf modelo list = some data) :
    (listRemoveByModel list (some modelo)).1 = 0 ∧
      cars list = data ::ₘ cars (listRemoveByModel list (some modelo)).2 := by
  cases hu : unlink modelo list.head with
  | none =>
    rw [unlink_eq_none] at hu
    have hmem := List.mem_of_find?_eq_some h
    have hmodelo := List.find?_some h
    exact absurd (List.mem_map.mpr ⟨data, hmem, by simpa using hmodelo⟩) hu
  | some rest =>
    obtain ⟨d, hf, hp⟩ := unlink_perm hu
    obtain rfl : d = data := Option.some.inj (hf.symm.trans h)
    simpa [listRemoveByModel, hu, cars] using hp

theorem remove_models (modelo : CString) (list : ListT) :
    (listRemoveByModel list (some modelo)).1 = (if modelo ∈ models list then 0 else 1) ∧
      models (listRemoveByModel list (some modelo)).2 = (models list).erase modelo := by
  cases hu : unlink modelo list.head with
  | none =>
    have hn : modelo ∉ models list := by simpa [models] using unlink_eq_none.mp hu
    simp [listRemoveByModel, hu, hn]
  | some rest =>
    have hm : modelo ∈ models list := by
      by_contra hn
      have hnone : unlink modelo list.head = none := unlink_eq_none.mpr (by simpa [models] using hn)
      rw [hnone] at hu
      cases hu
    simp only [listRemoveByModel, hu, hm, if_true, true_and]
    simp [models, unlink_models hu]

/-- Two lists with the same cars keep the same cars after a write, provided a
removal finds the same first car of its model in both. -/
theorem cars_after_congr {msg : MessageT} (t : AnoAtual) {l l' : ListT} (h : cars l = cars l')
    (hf : msg.opcode = opDel → ∀ m, target msg = some m → firstOf m l = firstOf m l') :
    cars (after t msg l) = cars (after t msg l') := by
  by_cases ha : msg.opcode = opAdd
  · rw [cars_after_add ha, cars_after_add ha, h]
  by_cases hd : msg.opcode = opDel
  · have hf := hf hd
    rw [after_del hd, after_del hd]
    cases ht : target msg with
    | none => exact h
    | some m =>
      have hff := hf m ht
      dsimp only
      cases hl : firstOf m l with
      | none => rw [remove_none hl, remove_none (hff ▸ hl), h]
      | some data =>
        have h1 := (remove_some hl).2
        have h2 := (remove_some (hff ▸ hl)).2
        rw [h1, h2] at h
        exact (Multiset.cons_inj_right data).mp h
  · rw [cars_after_of_not_write ha hd, cars_after_of_not_write ha hd, h]

theorem head_after_congr (msg : MessageT) (t : AnoAtual) {l l' : ListT} (h : l.head = l'.head) :
    (after t msg l).head = (after t msg l').head := by
  by_cases ha : msg.opcode = opAdd
  · rw [after_add ha, after_add ha]
    cases accepted t msg with
    | none => exact h
    | some car => rw [h]
  by_cases hd : msg.opcode = opDel
  · rw [after_del hd, after_del hd]
    cases target msg with
    | none => exact h
    | some m =>
      simp only [listRemoveByModel, h]
      cases unlink m l'.head with
      | none => exact h
      | some head => rfl
  · rw [after_read ha hd, after_read ha hd]
    split
    · rw [listOrderByYear, listOrderByYear, h]
    · exact h

theorem models_after_congr (msg : MessageT) (t : AnoAtual) {l l' : ListT}
    (h : models l = models l') : models (after t msg l) = models (after t msg l') := by
  by_cases ha : msg.opcode = opAdd
  · simp only [models_eq_map] at h ⊢
    rw [cars_after_add ha, cars_after_add ha, Multiset.map_add, Multiset.map_add, h]
  by_cases hd : msg.opcode = opDel
  · rw [after_del hd, after_del hd]
    cases target msg with
    | none => exact h
    | some m =>
      have h1 := (remove_models m l).2
      have h2 := (remove_models m l').2
      exact h1.trans (h ▸ h2.symm)
  · simp only [models_eq_map] at h ⊢
    rw [cars_after_of_not_write ha hd, cars_after_of_not_write ha hd, h]

/-- The reply to a write depends on the list through its models only. -/
theorem reply_congr {msg : MessageT}
    (hw : msg.opcode ∉ [opSize, opGet, opGetListByYear, opGetModels]) (t : AnoAtual) {l l' : ListT}
    (h : models l = models l') : reply t msg l = reply t msg l' := by
  simp only [List.mem_cons, List.not_mem_nil, or_false, not_or] at hw
  by_cases ha : msg.opcode = opAdd
  · simp only [reply, serve_add ha]
    cases accepted t msg <;> rfl
  by_cases hd : msg.opcode = opDel
  · simp only [reply, serve_del hd]
    by_cases hn : msg.nModels = 1
    · simp only [hn, ne_eq, not_true, if_false]
      cases hh : msg.models.head? with
      | none => simp [listRemoveByModel]
      | some m => rw [(remove_models m l).1, (remove_models m l').1, h]
    · simp [hn]
  · have ho : msg.opcode ∉ [opSize, opAdd, opGet, opGetListByYear, opGetModels, opDel] := by
      simp [hw, ha, hd]
    simp only [reply, serve_other ho]

theorem accepted_eq_some {t : AnoAtual} {msg : MessageT} {car : DataT} :
    accepted t msg = some car ↔
      msg.data = some (dataToProtobuf car) ∧ Valid t.create car ∧ Valid t.dup car := by
  constructor
  · intro h
    obtain ⟨⟨ano, preco, marca, modelo, combustivel⟩, hd, hc⟩ := Option.bind_eq_some_iff.mp h
    obtain ⟨c, hcreate, hdup⟩ := Option.bind_eq_some_iff.mp hc
    obtain ⟨rfl, hv⟩ := dataDup_eq_some.mp hdup
    obtain ⟨rfl, rfl, rfl, rfl, rfl, hv'⟩ := dataCreate_eq_some.mp hcreate
    exact ⟨hd, hv', hv⟩
  · rintro ⟨hd, hv, hv'⟩
    have hcreate : dataCreate t.create car.ano car.preco car.marca (some car.modelo)
        car.combustivel = some car := dataCreate_eq_some.mpr ⟨rfl, rfl, rfl, rfl, rfl, hv⟩
    simp [accepted, hd, dataToProtobuf, hcreate, dataDup_of_valid hv']

/-- A car of the list after a request was there before, or the request has
added it. -/
theorem mem_after {t : AnoAtual} {msg : MessageT} {list : ListT} {car : DataT}
    (h : car ∈ (after t msg list).head) :
    car ∈ list.head ∨ (msg.opcode = opAdd ∧ accepted t msg = some car) := by
  by_cases ha : msg.opcode = opAdd
  · rw [after_add ha] at h
    cases hacc : accepted t msg with
    | none =>
      rw [hacc] at h
      exact .inl h
    | some c =>
      rw [hacc] at h
      obtain h | h := List.mem_append.mp h
      · exact .inl h
      · exact .inr ⟨ha, by rw [List.mem_singleton.mp h]⟩
  by_cases hd : msg.opcode = opDel
  · rw [after_del hd] at h
    cases ht : target msg with
    | none =>
      rw [ht] at h
      exact .inl h
    | some m =>
      rw [ht] at h
      cases hu : unlink m list.head with
      | none => exact .inl (by simpa [listRemoveByModel, hu] using h)
      | some head =>
        obtain ⟨data, -, hperm⟩ := unlink_perm hu
        have hmem : car ∈ head := by simpa [listRemoveByModel, hu] using h
        exact .inl (hperm.mem_iff.mpr (List.mem_cons_of_mem data hmem))
  · have hcars := cars_after_of_not_write ha hd t list
    exact .inl ((Multiset.coe_eq_coe.mp hcars).mem_iff.mp h)

def Counted (list : ListT) : Prop := list.size = list.head.length

theorem counted_after {list : ListT} (h : Counted list) (t : AnoAtual) (msg : MessageT) :
    Counted (after t msg list) := by
  simp only [Counted] at h ⊢
  by_cases ha : msg.opcode = opAdd
  · rw [after_add ha]
    cases accepted t msg with
    | none => exact h
    | some car => simp [h]
  by_cases hd : msg.opcode = opDel
  · rw [after_del hd]
    cases target msg with
    | none => exact h
    | some m =>
      cases hu : unlink m list.head with
      | none => simpa [listRemoveByModel, hu] using h
      | some head =>
        obtain ⟨data, -, hperm⟩ := unlink_perm hu
        have hlen := hperm.length_eq
        rw [List.length_cons] at hlen
        simp only [listRemoveByModel, hu]
        omega
  · rw [after_read ha hd]
    split
    · exact h.trans (congrArg Nat.cast (listOrderByYear_perm list).length_eq.symm)
    · exact h

end ListServer.Skeleton
