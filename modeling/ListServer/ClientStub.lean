import ListServer.ClientThread

namespace ListServer.ClientStub

open Lib.CTypes CarData CarList Message Skeleton ClientThread

def marcaToProto : Int → Int
  | 0 => 0
  | 1 => 1
  | 2 => 2
  | 3 => 3
  | 4 => 4
  | _ => -1

def combustivelToProto : Int → Int
  | 0 => 0
  | 1 => 1
  | 2 => 2
  | 3 => 3
  | _ => -1

/-- The message that `rlist_add` sends, unless it gives up before. -/
def rlistAddRequest (car : DataT) : Option MessageT :=
  let marca := marcaToProto car.marca
  let combustivel := combustivelToProto car.combustivel
  if marca = -1 ∨ combustivel = -1 then none
  else some { MessageT.init with
    opcode := opAdd, cType := ctData,
    data := some ⟨car.ano, car.preco, marca, some car.modelo, combustivel⟩ }

def rlistRemoveByModelRequest (modelo : CString) : MessageT :=
  { MessageT.init with models := [modelo], nModels := 1, opcode := opDel, cType := ctModel }

def rlistGetByMarcaRequest (marca : Int) : Option MessageT :=
  let m := marcaToProto marca
  if m = -1 then none
  else some { MessageT.init with opcode := opGet, cType := ctMarca, result := m }

def rlistGetByYearRequest (ano : Int) : MessageT :=
  { MessageT.init with opcode := opGetListByYear, cType := ctResult, result := ano }

def rlistOrderByYearRequest : MessageT :=
  { MessageT.init with opcode := opGetListByYear, cType := ctResult, result := -1 }

def rlistSizeRequest : MessageT := { MessageT.init with opcode := opSize, cType := ctNone }

def rlistGetModelListRequest : MessageT :=
  { MessageT.init with opcode := opGetModels, cType := ctNone }

inductive Call
  | add (car : DataT)
  | removeByModel (modelo : CString)
  | getByMarca (marca : Int)
  | getByYear (ano : Int)
  | orderByYear
  | size
  | getModelList
deriving DecidableEq, Repr

def Call.message : Call → Option MessageT
  | .add car => rlistAddRequest car
  | .removeByModel modelo => some (rlistRemoveByModelRequest modelo)
  | .getByMarca marca => rlistGetByMarcaRequest marca
  | .getByYear ano => some (rlistGetByYearRequest ano)
  | .orderByYear => some rlistOrderByYearRequest
  | .size => some rlistSizeRequest
  | .getModelList => some rlistGetModelListRequest

def Call.atHead : Call → Bool
  | .add _ | .removeByModel _ => true
  | _ => false

/-- The two enumerations have the same numbers on both sides. -/
theorem marcaToProto_eq (marca : Int) : marcaToProto marca =
    if marcaToyota ≤ marca ∧ marca ≤ marcaMercedes then marca else -1 := by
  by_cases h : marcaToyota ≤ marca ∧ marca ≤ marcaMercedes
  · have hcases : marca = 0 ∨ marca = 1 ∨ marca = 2 ∨ marca = 3 ∨ marca = 4 := by
      simp only [marcaToyota, marcaMercedes] at h
      omega
    obtain rfl | rfl | rfl | rfl | rfl := hcases <;> rfl
  · rw [if_neg h]
    simp only [marcaToyota, marcaMercedes] at h
    unfold marcaToProto
    split <;> omega

theorem combustivelToProto_eq (combustivel : Int) : combustivelToProto combustivel =
    if combustivelGasolina ≤ combustivel ∧ combustivel ≤ combustivelHibrido
      then combustivel else -1 := by
  by_cases h : combustivelGasolina ≤ combustivel ∧ combustivel ≤ combustivelHibrido
  · have hcases : combustivel = 0 ∨ combustivel = 1 ∨ combustivel = 2 ∨ combustivel = 3 := by
      simp only [combustivelGasolina, combustivelHibrido] at h
      omega
    obtain rfl | rfl | rfl | rfl := hcases <;> rfl
  · rw [if_neg h]
    simp only [combustivelGasolina, combustivelHibrido] at h
    unfold combustivelToProto
    split <;> omega

def addRequest (car : DataT) : MessageT :=
  { MessageT.init with opcode := opAdd, cType := ctData, data := some (dataToProtobuf car) }

theorem rlistAddRequest_eq (car : DataT) : rlistAddRequest car =
    if (marcaToyota ≤ car.marca ∧ car.marca ≤ marcaMercedes) ∧
      (combustivelGasolina ≤ car.combustivel ∧ car.combustivel ≤ combustivelHibrido)
    then some (addRequest car) else none := by
  simp only [rlistAddRequest, marcaToProto_eq, combustivelToProto_eq]
  by_cases hm : marcaToyota ≤ car.marca ∧ car.marca ≤ marcaMercedes
  · have hm' : car.marca ≠ -1 := by
      simp only [marcaToyota] at hm
      omega
    by_cases hc : combustivelGasolina ≤ car.combustivel ∧ car.combustivel ≤ combustivelHibrido
    · have hc' : car.combustivel ≠ -1 := by
        simp only [combustivelGasolina] at hc
        omega
      simp only [hm, hc, hm', hc', or_self, and_self, if_false, if_true]
      rfl
    · simp [hc]
  · simp [hm]

theorem addRequest_of_message {car : DataT} {msg : MessageT}
    (h : (Call.add car).message = some msg) : addRequest car = msg := by
  have hadd : rlistAddRequest car = some msg := h
  rw [rlistAddRequest_eq] at hadd
  exact Option.some.inj (Option.ite_none_right_eq_some.mp hadd).2

theorem accepted_addRequest (t : AnoAtual) (car : DataT) : accepted t (addRequest car) =
    if Valid t.create car ∧ Valid t.dup car then some car else none := by
  apply Option.ext
  intro c
  rw [accepted_eq_some, Option.ite_none_right_eq_some, Option.some.injEq]
  constructor
  · rintro ⟨hd, hv⟩
    obtain rfl : car = c := dataToProtobuf_injective (Option.some.inj hd)
    exact ⟨hv, rfl⟩
  · rintro ⟨hv, rfl⟩
    exact ⟨rfl, hv⟩

def getByMarcaRequest (marca : Int) : MessageT :=
  { MessageT.init with opcode := opGet, cType := ctMarca, result := marca }

theorem rlistGetByMarcaRequest_eq (marca : Int) : rlistGetByMarcaRequest marca =
    if marcaToyota ≤ marca ∧ marca ≤ marcaMercedes then some (getByMarcaRequest marca)
    else none := by
  simp only [rlistGetByMarcaRequest, marcaToProto_eq]
  by_cases hm : marcaToyota ≤ marca ∧ marca ≤ marcaMercedes
  · have hm' : marca ≠ -1 := by
      simp only [marcaToyota] at hm
      omega
    rw [if_pos hm, if_pos hm, if_neg hm']
    rfl
  · rw [if_neg hm, if_neg hm, if_pos rfl]

theorem getByMarcaRequest_of_message {marca : Int} {msg : MessageT}
    (h : (Call.getByMarca marca).message = some msg) : getByMarcaRequest marca = msg := by
  have hget : rlistGetByMarcaRequest marca = some msg := h
  rw [rlistGetByMarcaRequest_eq] at hget
  exact Option.some.inj (Option.ite_none_right_eq_some.mp hget).2

section Replies

variable (t : AnoAtual) (list : ListT)

theorem serve_getByMarca (marca : Int) : serve t (getByMarcaRequest marca) list =
    (match listGetByMarca list marca with
      | none => (getByMarcaRequest marca).error
      | some car => { getByMarcaRequest marca with
          data := some (dataToProtobuf car), opcode := opGet + 1, cType := ctData }, list) := by
  have hinv : serve t (getByMarcaRequest marca) list =
      (invokeGet (getByMarcaRequest marca) list).2 := rfl
  rw [hinv, invokeGet, if_pos (by rfl)]
  cases h : listGetByMarca list (getByMarcaRequest marca).result <;>
    simp_all [getByMarcaRequest]

theorem serve_getByYear {ano : Int} (h : ano ≠ -1) : serve t (rlistGetByYearRequest ano) list =
    ({ rlistGetByYearRequest ano with
      opcode := opGetListByYear + 1, cType := ctList, nCars := (listGetByYear list ano).length,
      cars := (listGetByYear list ano).map dataToProtobuf }, list) := by
  have hinv : serve t (rlistGetByYearRequest ano) list =
      (invokeGetListByYear (rlistGetByYearRequest ano) list).2 := rfl
  have hres : (rlistGetByYearRequest ano).result ≠ -1 := h
  rw [hinv, invokeGetListByYear, if_pos hres]
  rfl

theorem serve_size (h : listSize list ≠ -1) : serve t rlistSizeRequest list =
    ({ rlistSizeRequest with
      opcode := opSize + 1, cType := ctResult, result := listSize list }, list) := by
  have hinv : serve t rlistSizeRequest list = (invokeSize rlistSizeRequest list).2 := rfl
  rw [hinv, invokeSize, if_neg h]
  rfl

theorem serve_getModelList : serve t rlistGetModelListRequest list =
    ({ rlistGetModelListRequest with
      opcode := opGetModels + 1, cType := ctModel, nModels := toSizeT (listSize list),
      models := listGetModelList list }, list) := rfl

end Replies

theorem needsForward_message {q : Call} {msg : MessageT} (h : q.message = some msg) :
    needsForward msg = q.atHead := by
  cases q with
  | add car =>
    obtain ⟨-, h⟩ := Option.ite_none_left_eq_some.mp h
    obtain rfl := Option.some.inj h
    rfl
  | getByMarca marca =>
    obtain ⟨-, h⟩ := Option.ite_none_left_eq_some.mp h
    obtain rfl := Option.some.inj h
    rfl
  | removeByModel | getByYear | orderByYear | size | getModelList =>
    obtain rfl := Option.some.inj h
    rfl

def toyota (ano : Int) : DataT := ⟨ano, Single.zero, marcaToyota, ofBytes [65], combustivelGasolina⟩

def toyotaData (ano : Int) : Data :=
  ⟨ano, Single.zero, marcaToyota, some (ofBytes [65]), combustivelGasolina⟩

def toyotaRequest (ano : Int) : MessageT :=
  { MessageT.init with opcode := opAdd, cType := ctData, data := some (toyotaData ano) }

end ListServer.ClientStub
