import ListServer.PackedSize
import ListServer.Lib.Pointer

namespace ListServer.RemoteCalls

open Lib.CTypes Lib.Pointer CarData CarList Message Skeleton ClientStub ListTransfer StoredCars
open PackedSize

def protoToMarca : Int → Int
  | 0 => 0
  | 1 => 1
  | 2 => 2
  | 3 => 3
  | 4 => 4
  | _ => -1

def protoToCombustivel : Int → Int
  | 0 => 0
  | 1 => 1
  | 2 => 2
  | 3 => 3
  | _ => -1

/-- `op_success` accepts a NULL message and says no. -/
def success (res : Option MessageT) (opcode ctype : Int) : Bool :=
  res.any fun msg => opSuccess msg opcode ctype

/-- The rest of `rlist_add` after `network_send_receive`, and so for the other
calls. -/
def rlistAddResult (res : Option MessageT) : Except Fault Int :=
  if !success res opAdd ctNone then .ok (-1) else .ok 0

def rlistRemoveByModelResult (res : Option MessageT) : Except Fault Int := do
  let res ← deref res
  if res.opcode = opDel + 1 ∧ res.cType = ctResult then .ok res.result else .ok (-1)

def rlistGetByMarcaResult (anoAtual : Int) (res : Option MessageT) :
    Except Fault (Option DataT) := do
  if !success res opGet ctData then return none
  let res ← deref res
  let d ← deref res.data
  return dataCreate anoAtual d.ano d.preco (protoToMarca d.marca) d.modelo
    (protoToCombustivel d.combustivel)

/-- The loop gives up at the first car that `data_create` refuses. -/
def createAll (anoAtual : Int) (cars : List Data) : Option (List DataT) :=
  cars.mapM fun d => dataCreate anoAtual d.ano d.preco d.marca d.modelo d.combustivel

def rlistGetByYearResult (anoAtual : Int) (res : Option MessageT) :
    Except Fault (Option (List DataT)) := do
  if !success res opGetListByYear ctList then return none
  let res ← deref res
  if res.nCars = 0 then return none
  return createAll anoAtual (res.cars.take res.nCars)

def rlistOrderByYearResult (anoAtual : Int) (res : Option MessageT) : Except Fault Int := do
  if !success res opGetListByYear ctList then return -1
  let res ← deref res
  if res.nCars = 0 then return -1
  if (createAll anoAtual (res.cars.take res.nCars)).isNone then return -1
  return 0

def rlistSizeResult (res : Option MessageT) : Except Fault Int := do
  if !success res opSize ctResult then return -1
  let res ← deref res
  return res.result

def rlistGetModelListResult (res : Option MessageT) : Except Fault (Option (List CString)) := do
  if !success res opGetModels ctModel then return none
  let res ← deref res
  return some (res.models.take res.nModels)

/-- What a call returns to its caller; a NULL is `none`. -/
inductive Answer
  | code (rc : Int)
  | car (data : Option DataT)
  | cars (array : Option (List DataT))
  | models (array : Option (List CString))
deriving DecidableEq, Repr

/-- The exchange with one server. A frame that is too long is not sent, and a
reply that is too long makes the server close the connection. -/
def networkSendReceive (t : AnoAtual) (msg : MessageT) (list : ListT) : Option MessageT × ListT :=
  if messageTGetPackedSize msg = 0 ∨ messageTGetPackedSize msg > 0xFFFF then (none, list)
  else
    let (resp, list) := serve t msg list
    (if networkSend resp = 0 then some resp else none, list)

def result (anoAtual : Int) (res : Option MessageT) : Call → Except Fault Answer
  | .add _ => (rlistAddResult res).map .code
  | .removeByModel _ => (rlistRemoveByModelResult res).map .code
  | .getByMarca _ => (rlistGetByMarcaResult anoAtual res).map .car
  | .getByYear _ => (rlistGetByYearResult anoAtual res).map .cars
  | .orderByYear => (rlistOrderByYearResult anoAtual res).map .code
  | .size => (rlistSizeResult res).map .code
  | .getModelList => (rlistGetModelListResult res).map .models

def gaveUp : Call → Answer
  | .add _ | .removeByModel _ | .orderByYear | .size => .code (-1)
  | .getByMarca _ => .car none
  | .getByYear _ => .cars none
  | .getModelList => .models none

/-- A stub call against one server, in a year that both read. -/
def remoteCall (ano : Int) (q : Call) (list : ListT) : Except Fault (Answer × ListT) :=
  match q.message with
  | none => .ok (gaveUp q, list)
  | some msg =>
    let (res, list) := networkSendReceive (.same ano) msg list
    (result ano res q).map fun answer => (answer, list)

/-- An empty array of cars is given as NULL. -/
def arrayOrNull (cars : List DataT) : Option (List DataT) := if cars = [] then none else some cars

def localCall (ano : Int) (q : Call) (list : ListT) : Answer × ListT :=
  match q with
  | .add car => ((listAdd ano list car).map .code id)
  | .removeByModel modelo => (listRemoveByModel list (some modelo)).map .code id
  | .getByMarca marca => (.car (listGetByMarca list marca), list)
  | .getByYear ano => (.cars (arrayOrNull (listGetByYear list ano)), list)
  | .orderByYear => (.code 0, listOrderByYear list)
  | .size => (.code (listSize list), list)
  | .getModelList => (.models (some (listGetModelList list)), list)

theorem networkSendReceive_eq {ano : Int} {list : ListT} {q : Call} {msg : MessageT}
    (h : Reached ano list) (hq : q.message = some msg)
    (hreq : messageTGetPackedSize msg ≤ 65535)
    (hresp : messageTGetPackedSize (reply (.same ano) msg list) ≤ 65535) :
    networkSendReceive (.same ano) msg list =
      (some (reply (.same ano) msg list), after (.same ano) msg list) := by
  have hstub : (Query.stub q).message = some msg := hq
  have hpos := messageTGetPackedSize_pos (message_opcode hstub)
  have hsend := (networkSend_eq_zero _).mpr ⟨reply_pos h hstub (.same ano), hresp⟩
  have hfits : ¬ (messageTGetPackedSize msg = 0 ∨ messageTGetPackedSize msg > 0xFFFF) := by omega
  rw [networkSendReceive, if_neg hfits]
  exact Prod.ext (if_pos hsend) rfl

section Calls

variable {ano : Int} {list : ListT}

def Transparent (ano : Int) (list : ListT) (q : Call) (msg : MessageT) : Prop :=
  (result ano (some (reply (.same ano) msg list)) q).map
    (fun answer => (answer, after (.same ano) msg list)) = .ok (localCall ano q list)

theorem transparent_add (car : DataT) : Transparent ano list (.add car) (addRequest car) := by
  have hadd : (addRequest car).opcode = opAdd := rfl
  rw [Transparent, reply, after, serve_add hadd, accepted_addRequest, localCall, listAdd_eq]
  by_cases hv : Valid ano car
  · rw [AnoAtual.same, if_pos ⟨hv, hv⟩, if_pos hv]
    rfl
  · rw [AnoAtual.same, if_neg (fun h => hv h.1), if_neg hv]
    rfl

theorem transparent_removeByModel (modelo : CString) :
    Transparent ano list (.removeByModel modelo) (rlistRemoveByModelRequest modelo) := by
  have hdel : (rlistRemoveByModelRequest modelo).opcode = opDel := rfl
  have hn : ¬ (rlistRemoveByModelRequest modelo).nModels ≠ 1 := fun h => h rfl
  rw [Transparent, reply, after, serve_del hdel, if_neg hn]
  rfl

theorem protoToMarca_eq {car : DataT} (h : Valid ano car) : protoToMarca car.marca = car.marca := by
  obtain ⟨hmin, hmax⟩ := (valid_iff.mp h).2.2.1
  have hcases : car.marca = 0 ∨ car.marca = 1 ∨ car.marca = 2 ∨ car.marca = 3 ∨ car.marca = 4 := by
    simp only [marcaToyota, marcaMercedes] at hmin hmax
    omega
  obtain h | h | h | h | h := hcases <;> rw [h] <;> rfl

theorem protoToCombustivel_eq {car : DataT} (h : Valid ano car) :
    protoToCombustivel car.combustivel = car.combustivel := by
  obtain ⟨hmin, hmax⟩ := (valid_iff.mp h).2.2.2
  have hcases : car.combustivel = 0 ∨ car.combustivel = 1 ∨ car.combustivel = 2 ∨
      car.combustivel = 3 := by
    simp only [combustivelGasolina, combustivelHibrido] at hmin hmax
    omega
  obtain h | h | h | h := hcases <;> rw [h] <;> rfl

theorem transparent_getByMarca (h : WellFormed ano list) (marca : Int) :
    Transparent ano list (.getByMarca marca) (getByMarcaRequest marca) := by
  rw [Transparent, reply, after, serve_getByMarca, localCall]
  cases hfind : listGetByMarca list marca with
  | none => rfl
  | some car =>
    have hv : Valid ano car := h.valid car (List.mem_of_find?_eq_some hfind)
    have hcreate : dataCreate ano car.ano car.preco (protoToMarca car.marca) (some car.modelo)
        (protoToCombustivel car.combustivel) = some car := by
      rw [protoToMarca_eq hv, protoToCombustivel_eq hv]
      exact dataCreate_of_valid hv
    have hres : rlistGetByMarcaResult ano (some { getByMarcaRequest marca with
        data := some (dataToProtobuf car), opcode := opGet + 1, cType := ctData }) =
        .ok (dataCreate ano car.ano car.preco (protoToMarca car.marca) (some car.modelo)
          (protoToCombustivel car.combustivel)) := rfl
    rw [hcreate] at hres
    dsimp only [result]
    rw [hres]
    rfl

theorem createAll_valid {cars : List DataT} (h : ∀ car ∈ cars, Valid ano car) :
    createAll ano (cars.map dataToProtobuf) = some cars := by
  induction cars with
  | nil => rfl
  | cons car cars ih =>
    have hcar := dataCreate_of_valid (h car List.mem_cons_self)
    have hcars := ih fun c hc => h c (List.mem_cons_of_mem car hc)
    rw [createAll] at hcars
    rw [createAll, List.map_cons, List.mapM_cons, hcars]
    dsimp only [dataToProtobuf]
    rw [hcar]
    rfl

theorem transparent_getByYear (h : WellFormed ano list) {year : Int} (hyear : year ≠ -1) :
    Transparent ano list (.getByYear year) (rlistGetByYearRequest year) := by
  rw [Transparent, reply, after, serve_getByYear _ _ hyear, localCall]
  have hvalid : ∀ car ∈ listGetByYear list year, Valid ano car := fun car hcar =>
    h.valid car (List.mem_of_mem_filter hcar)
  generalize listGetByYear list year = cars at hvalid
  have hres : rlistGetByYearResult ano (some { rlistGetByYearRequest year with
      opcode := opGetListByYear + 1, cType := ctList, nCars := cars.length,
      cars := cars.map dataToProtobuf }) = .ok (arrayOrNull cars) := by
    cases cars with
    | nil => rfl
    | cons car cars =>
      have hall := createAll_valid hvalid
      have htake : ((car :: cars).map dataToProtobuf).take (car :: cars).length =
          (car :: cars).map dataToProtobuf := List.take_of_length_le (by simp)
      rw [← htake] at hall
      exact congrArg Except.ok hall
  dsimp only [result]
  rw [hres]
  rfl

theorem transparent_size (h : listSize list ≠ -1) :
    Transparent ano list .size rlistSizeRequest := by
  rw [Transparent, reply, after, serve_size _ _ h]
  rfl

theorem transparent_getModelList (hc : Counted list) (hmax : list.size ≤ intMax) :
    Transparent ano list .getModelList rlistGetModelListRequest := by
  rw [Transparent, reply, after, serve_getModelList, toSizeT_models hc hmax]
  have hres : rlistGetModelListResult (some { rlistGetModelListRequest with
      opcode := opGetModels + 1, cType := ctModel, nModels := (listGetModelList list).length,
      models := listGetModelList list }) =
      .ok (some ((listGetModelList list).take (listGetModelList list).length)) := rfl
  rw [List.take_length] at hres
  dsimp only [result]
  rw [hres]
  rfl

theorem transparent_message {q : Call} {msg : MessageT} (h : Reached ano list)
    (horder : q ≠ .orderByYear) (hyear : q ≠ .getByYear (-1)) (hq : q.message = some msg) :
    Transparent ano list q msg := by
  have hwf := h.wellFormed
  cases q with
  | add car =>
    obtain rfl := addRequest_of_message hq
    exact transparent_add car
  | removeByModel modelo =>
    obtain rfl := Option.some.inj hq
    exact transparent_removeByModel modelo
  | getByMarca marca =>
    obtain rfl := getByMarcaRequest_of_message hq
    exact transparent_getByMarca hwf marca
  | getByYear year =>
    obtain rfl := Option.some.inj hq
    exact transparent_getByYear hwf fun he => hyear (congrArg Call.getByYear he)
  | orderByYear => exact absurd rfl horder
  | size =>
    obtain rfl := Option.some.inj hq
    refine transparent_size ?_
    rw [listSize, hwf.size]
    omega
  | getModelList =>
    obtain rfl := Option.some.inj hq
    exact transparent_getModelList hwf.size h.counter

theorem gaveUp_eq_local {q : Call} (h : WellFormed ano list) (hq : q.message = none) :
    (gaveUp q, list) = localCall ano q list := by
  cases q with
  | add car =>
    have hadd : rlistAddRequest car = none := hq
    rw [rlistAddRequest_eq] at hadd
    have hv : ¬ Valid ano car := fun hv => by
      rw [if_pos (valid_iff.mp hv).2.2] at hadd
      cases hadd
    rw [localCall, listAdd_eq, if_neg hv]
    rfl
  | getByMarca marca =>
    have hget : rlistGetByMarcaRequest marca = none := hq
    rw [rlistGetByMarcaRequest_eq] at hget
    have hfind : listGetByMarca list marca = none := by
      refine List.find?_eq_none.mpr fun car hcar hmarca => ?_
      have hbrand := (valid_iff.mp (h.valid car hcar)).2.2.1
      rw [of_decide_eq_true hmarca] at hbrand
      rw [if_pos hbrand] at hget
      cases hget
    rw [localCall, hfind]
    rfl
  | removeByModel | getByYear | orderByYear | size | getModelList => cases hq

/-- A stub call against a server returns what the call on the server's list
returns, and leaves the list as that call does. -/
theorem remote_eq_local {q : Call} (h : Reached ano list) (horder : q ≠ .orderByYear)
    (hyear : q ≠ .getByYear (-1))
    (hfit : ∀ msg, q.message = some msg → messageTGetPackedSize msg ≤ 65535 ∧
      messageTGetPackedSize (reply (.same ano) msg list) ≤ 65535) :
    remoteCall ano q list = .ok (localCall ano q list) := by
  rw [remoteCall]
  cases hq : q.message with
  | none => exact congrArg Except.ok (gaveUp_eq_local h.wellFormed hq)
  | some msg =>
    obtain ⟨hreq, hresp⟩ := hfit msg hq
    have hnet := networkSendReceive_eq h hq hreq hresp
    have hcall := transparent_message h horder hyear hq
    dsimp only
    rw [hnet]
    exact hcall

end Calls

theorem remote_eq_local_toyota : remoteCall 2026 (.add (toyota 2020)) listCreate =
    .ok (localCall 2026 (.add (toyota 2020)) listCreate) := by
  refine remote_eq_local (reached_create 2026) (by decide) (by decide) fun msg hq => ?_
  obtain rfl := Option.some.inj hq
  decide

end ListServer.RemoteCalls
