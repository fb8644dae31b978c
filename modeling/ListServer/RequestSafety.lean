import ListServer.PackedSize
import ListServer.Lib.Pointer

namespace ListServer.RequestSafety

open Lib.CTypes Lib.Pointer CarData CarList Message Skeleton ClientThread PackedSize

/-- A message as it lies in memory. Any pointer may be NULL, and the array of a
repeated field has a length of its own. -/
structure MessagePtr where
  opcode : Int
  cType : Int
  data : Option Data
  result : Int
  nModels : Nat
  models : Option (List (Option CString))
  nCars : Nat
  cars : Option (List (Option Data))
deriving DecidableEq

def MessagePtr.error (msg : MessagePtr) : MessagePtr :=
  { msg with opcode := opError, cType := ctNone, result := -1 }

/-- What `message_t__unpack` makes of a frame: counts that agree with the
fields, and no NULL in place of a string. -/
structure Unpacked where
  msg : MessageT
  models : msg.nModels = msg.models.length
  cars : msg.nCars = msg.cars.length
  strings : ∀ d, msg.data = some d ∨ d ∈ msg.cars → d.modelo ≠ none

/-- An empty repeated field has no array. -/
def arrayOf {α : Type} (elements : List α) : Option (List (Option α)) :=
  if elements.isEmpty then none else some (elements.map some)

def Unpacked.inMemory (u : Unpacked) : MessagePtr :=
  ⟨u.msg.opcode, u.msg.cType, u.msg.data, u.msg.result, u.msg.nModels, arrayOf u.msg.models,
    u.msg.nCars, arrayOf u.msg.cars⟩

/-- A list as `list.c` builds it. -/
structure BuiltList where
  list : ListT
  counted : Counted list

def opStr (opcode : Int) : String :=
  if opcode = opAdd then "OP_ADD"
  else if opcode = opGet then "OP_GET"
  else if opcode = opDel then "OP_DEL"
  else if opcode = opSize then "OP_SIZE"
  else if opcode = opGetModels then "OP_GETMODELS"
  else if opcode = opGetListByYear then "OP_GETLISTBYTEAR"
  else if opcode = opOrder then "OP_ORDER"
  else if opcode = opError then "OP_ERROR"
  else if opcode = opBusy then "OP_BUSY"
  else if opcode = opReady then "OP_READY"
  else "UNKNOWN"

def ctStr (cType : Int) : String :=
  if cType = ctData then "CT_DATA"
  else if cType = ctMarca then "CT_MARCA"
  else if cType = ctYear then "CT_YEAR"
  else if cType = ctModel then "CT_MODEL"
  else if cType = ctResult then "CT_RESULT"
  else if cType = ctList then "CT_LIST"
  else if cType = ctNone then "CT_NONE"
  else "UNKNOWN"

/-- What a log line says after the names of the operation and the type. A model
that is NULL is written as a dash. -/
inductive LogArgs
  | add (modelo : Option CString) (ano : Int) (preco : Single) (marca combustivel : Int)
  | del (modelo : Option CString)
  | number (n : Int)
  | plain
deriving DecidableEq

structure LogLine where
  opStr : String
  ctStr : String
  args : LogArgs
deriving DecidableEq

/-- `msg->data ? f(msg->data) : absent`. -/
def fromData {α : Type} (msg : MessagePtr) (f : Data → α) (absent : α) : Except Fault α :=
  if msg.data.isSome then (deref msg.data).map f else .ok absent

/-- The line for a request. An operation without a format of its own gets no
text. -/
def writeInServerLog (msg : MessagePtr) : Except Fault (Option LogLine) := do
  let line := LogLine.mk (opStr msg.opcode) (ctStr msg.cType)
  if msg.opcode = opAdd then
    let modelo ← fromData msg Data.modelo none
    let marca ← fromData msg Data.marca 0
    let comb ← fromData msg Data.combustivel 0
    let ano ← fromData msg Data.ano 0
    let preco ← fromData msg Data.preco Single.zero
    return some (line (.add modelo ano preco marca comb))
  else if msg.opcode = opDel then
    let mode ← index msg.models 0
    return some (line (.del mode))
  else if msg.opcode = opGet ∨ msg.opcode = opGetListByYear then
    return some (line (.number msg.result))
  else if msg.opcode = opGetModels ∨ msg.opcode = opSize then
    return some (line .plain)
  else return none

/-- The fields that `message_t__get_packed_size` and `message_t__pack` read. -/
def readMessage (msg : MessagePtr) : Except Fault MessageT := do
  let models ← readPointers msg.models 0 msg.nModels
  let cars ← readPointers msg.cars 0 msg.nCars
  return ⟨msg.opcode, msg.cType, msg.data, msg.result, msg.nModels, models, msg.nCars, cars⟩

def networkSendPtr (msg : MessagePtr) : Except Fault Int := (readMessage msg).map networkSend

/-- The forward reads the request to pack it for the successor. -/
def zooForwardPtr (next : Bool) (resp : Option MessageT) (msg : MessagePtr) : Except Fault Int := do
  if !next then return -2
  let _ ← readMessage msg
  return zooForwardToSuccessor next resp

/-- The arrays of `list_get_all` and `list_get_model_list` have room for as
many elements as the counter says and a NULL. -/
def listGetAllPtr (list : ListT) : Except Fault (List (Option DataT)) :=
  fill (list.size + 1).toNat (list.head.map some ++ [none])

def listGetModelListPtr (list : ListT) : Except Fault (List (Option CString)) :=
  fill (list.size + 1).toNat ((list.head.map DataT.modelo).map some ++ [none])

def listGetByYearPtr (list : ListT) (ano : Int) : Except Fault (List (Option DataT)) :=
  fill (list.head.countP (fun data => decide (data.ano = ano)) + 1)
    ((listGetByYear list ano).map some ++ [none])

/-- The array is given up to its NULL, and the new one has none. -/
def dataArrayToProtobufArrayPtr (cars : List (Option DataT)) :
    Except Fault (Option (List (Option Data)) × Nat) :=
  (untilNull cars).map fun cars => (some (cars.map fun car => some (dataToProtobuf car)), cars.length)

def invokeSizePtr (msg : MessagePtr) (list : ListT) : Except Fault (MessagePtr × ListT) :=
  let msg := { msg with result := listSize list }
  if msg.result = -1 then .ok ({ msg with opcode := opError, cType := ctNone }, list)
  else .ok ({ msg with opcode := msg.opcode + 1, cType := ctResult }, list)

def invokeAddPtr (t : AnoAtual) (msg : MessagePtr) (list : ListT) :
    Except Fault (MessagePtr × ListT) :=
  if msg.data.isNone then .ok (msg.error, list)
  else do
    let d ← deref msg.data
    match dataCreate t.create d.ano d.preco d.marca d.modelo d.combustivel with
    | none => return (msg.error, list)
    | some car =>
      let (res, list) := listAdd t.dup list car
      if res = 0 then
        return ({ msg with opcode := msg.opcode + 1, cType := ctNone, result := 0 }, list)
      else return (msg.error, list)

def invokeGetPtr (msg : MessagePtr) (list : ListT) : Except Fault (MessagePtr × ListT) :=
  if msg.cType = ctMarca then
    match listGetByMarca list msg.result with
    | none => .ok (msg.error, list)
    | some car => .ok ({ msg with
        data := some (dataToProtobuf car), opcode := msg.opcode + 1, cType := ctData }, list)
  else .ok (msg, list)

def invokeGetListByYearPtr (msg : MessagePtr) (list : ListT) :
    Except Fault (MessagePtr × ListT) :=
  if msg.result ≠ -1 then do
    let cars ← listGetByYearPtr list msg.result
    let (cars, n) ← dataArrayToProtobufArrayPtr cars
    return ({ msg with cars := cars, nCars := n, opcode := msg.opcode + 1, cType := ctList }, list)
  else do
    let list := listOrderByYear list
    let cars ← listGetAllPtr list
    let (cars, n) ← dataArrayToProtobufArrayPtr cars
    return ({ msg with cars := cars, nCars := n, opcode := msg.opcode + 1, cType := ctList }, list)

def invokeGetModelsPtr (msg : MessagePtr) (list : ListT) : Except Fault (MessagePtr × ListT) := do
  let models ← listGetModelListPtr list
  return ({ msg with
    models := some models, nModels := toSizeT (listSize list), opcode := msg.opcode + 1,
    cType := ctModel }, list)

def invokeDelPtr (msg : MessagePtr) (list : ListT) : Except Fault (MessagePtr × ListT) :=
  if msg.nModels ≠ 1 then .ok (msg.error, list)
  else do
    let modelo ← index msg.models 0
    let (res, list) := listRemoveByModel list modelo
    return ({ msg with opcode := msg.opcode + 1, cType := ctResult, result := res }, list)

def invokePtr (t : AnoAtual) (msg : MessagePtr) (list : ListT) :
    Except Fault (MessagePtr × ListT) :=
  if msg.opcode = opSize then invokeSizePtr msg list
  else if msg.opcode = opAdd then invokeAddPtr t msg list
  else if msg.opcode = opGet then invokeGetPtr msg list
  else if msg.opcode = opGetListByYear then invokeGetListByYearPtr msg list
  else if msg.opcode = opGetModels then invokeGetModelsPtr msg list
  else if msg.opcode = opDel then invokeDelPtr msg list
  else .ok (msg.error, list)

def executePtr (t : AnoAtual) (next : Bool) (resp : Option MessageT) (msg : MessagePtr)
    (list : ListT) : Except Fault (MessagePtr × ListT) :=
  if msg.opcode = opAdd ∨ msg.opcode = opDel ∨ msg.opcode = opOrder then do
    let fwdRc ← zooForwardPtr next resp msg
    if fwdRc = -2 then invokePtr t msg list
    else if fwdRc ≠ 0 then .ok ({ msg with opcode := opError, result := -1 }, list)
    else invokePtr t msg list
  else invokePtr t msg list

/-- A request from its receipt to its reply: the message as it is then, the
list and the code of `network_send`. `malloc` and `strdup` succeed. -/
def handle (t : AnoAtual) (next : Bool) (resp : Option MessageT) (msg : MessagePtr)
    (list : ListT) : Except Fault (MessagePtr × ListT × Int) := do
  let _ ← writeInServerLog msg
  let (msg, list) ← executePtr t next resp msg list
  let rc ← networkSendPtr msg
  return (msg, list, rc)

/-- The arrays of a message hold the elements that their counts promise. -/
structure Holds (msg : MessagePtr) (models : List CString) (cars : List Data) : Prop where
  models : readPointers msg.models 0 msg.nModels = .ok models
  cars : readPointers msg.cars 0 msg.nCars = .ok cars

theorem readMessage_eq {msg : MessagePtr} {models : List CString} {cars : List Data}
    (h : Holds msg models cars) : readMessage msg =
      .ok ⟨msg.opcode, msg.cType, msg.data, msg.result, msg.nModels, models, msg.nCars, cars⟩ := by
  rw [readMessage, h.models, h.cars]
  rfl

theorem readPointers_arrayOf {α : Type} (elements : List α) :
    readPointers (arrayOf elements) 0 elements.length = .ok elements := by
  cases elements with
  | nil => rfl
  | cons x elements =>
    have h := readPointers_map_some (a := x :: elements) (i := 0) (n := (x :: elements).length)
      (by omega) []
    rwa [List.append_nil, List.drop_zero, List.take_length] at h

theorem holds_inMemory (u : Unpacked) : Holds u.inMemory u.msg.models u.msg.cars := by
  refine ⟨?_, ?_⟩
  · have h := readPointers_arrayOf u.msg.models
    rwa [← u.models] at h
  · have h := readPointers_arrayOf u.msg.cars
    rwa [← u.cars] at h

theorem readMessage_inMemory (u : Unpacked) : readMessage u.inMemory = .ok u.msg :=
  readMessage_eq (holds_inMemory u)

section InMemory

variable (u : Unpacked)

@[simp] theorem inMemory_opcode : u.inMemory.opcode = u.msg.opcode := rfl

@[simp] theorem inMemory_cType : u.inMemory.cType = u.msg.cType := rfl

@[simp] theorem inMemory_data : u.inMemory.data = u.msg.data := rfl

@[simp] theorem inMemory_result : u.inMemory.result = u.msg.result := rfl

@[simp] theorem inMemory_nModels : u.inMemory.nModels = u.msg.nModels := rfl

@[simp] theorem inMemory_models : u.inMemory.models = arrayOf u.msg.models := rfl

end InMemory

theorem index_models {u : Unpacked} {modelo : CString} {models : List CString}
    (h : u.msg.models = modelo :: models) : index u.inMemory.models 0 = .ok (some modelo) := by
  rw [inMemory_models, h]
  rfl

/-- The outcome is a message that can be read, and the list of `v`. The message
says what `v` says as long as the counter of the list is an `int`. -/
def Computes (list : ListT) (r : Except Fault (MessagePtr × ListT)) (v : MessageT × ListT) : Prop :=
  ∃ p m, r = .ok (p, v.2) ∧ readMessage p = .ok m ∧ (list.size ≤ intMax → m = v.1)

section Branches

variable {u : Unpacked} {list : ListT}

theorem computes_of_eq {p : MessagePtr} {v : MessageT × ListT}
    {r : Except Fault (MessagePtr × ListT)} (hr : r = .ok (p, v.2)) (hp : readMessage p = .ok v.1) :
    Computes list r v := ⟨p, v.1, hr, hp, fun _ => rfl⟩

theorem computes_error : Computes list (.ok (u.inMemory.error, list)) (u.msg.error, list) :=
  computes_of_eq rfl (readMessage_eq ⟨(holds_inMemory u).models, (holds_inMemory u).cars⟩)

theorem computes_size :
    Computes list (invokeSizePtr u.inMemory list) (invokeSize u.msg list).2 := by
  have h := holds_inMemory u
  rw [invokeSizePtr, invokeSize]
  by_cases hs : listSize list = -1
  · rw [if_pos hs, if_pos hs]
    exact computes_of_eq rfl (readMessage_eq ⟨h.models, h.cars⟩)
  · rw [if_neg hs, if_neg hs]
    exact computes_of_eq rfl (readMessage_eq ⟨h.models, h.cars⟩)

theorem computes_add (t : AnoAtual) :
    Computes list (invokeAddPtr t u.inMemory list) (invokeAdd t u.msg list).2 := by
  have h := holds_inMemory u
  rw [invokeAddPtr, invokeAdd, inMemory_data]
  cases hd : u.msg.data with
  | none => exact computes_error
  | some d =>
    simp only [Option.isNone_some, Bool.false_eq_true, if_false, deref, bind, Except.bind, pure,
      Except.pure]
    cases hc : dataCreate t.create d.ano d.preco d.marca d.modelo d.combustivel with
    | none => exact computes_error
    | some car =>
      dsimp only
      by_cases hr : (listAdd t.dup list car).1 = 0
      · rw [if_pos hr, if_pos hr]
        exact computes_of_eq rfl (readMessage_eq ⟨h.models, h.cars⟩)
      · rw [if_neg hr, if_neg hr]
        exact computes_of_eq rfl (readMessage_eq ⟨h.models, h.cars⟩)

theorem computes_get : Computes list (invokeGetPtr u.inMemory list) (invokeGet u.msg list).2 := by
  have h := holds_inMemory u
  rw [invokeGetPtr, invokeGet, inMemory_cType, inMemory_result]
  by_cases hm : u.msg.cType = ctMarca
  · rw [if_pos hm, if_pos hm]
    cases listGetByMarca list u.msg.result with
    | none => exact computes_error
    | some car => exact computes_of_eq rfl (readMessage_eq ⟨h.models, h.cars⟩)
  · rw [if_neg hm, if_neg hm]
    exact computes_of_eq rfl (readMessage_inMemory u)

theorem fill_eq {α : Type} {n : Nat} {elements : List α} (h : elements.length + 1 ≤ n) :
    fill n (elements.map some ++ [none]) = .ok (elements.map some ++ [none]) :=
  if_pos (by simpa using h)

theorem dataArrayToProtobufArrayPtr_eq (cars : List DataT) :
    dataArrayToProtobufArrayPtr (cars.map some ++ [none]) =
      .ok (some ((cars.map dataToProtobuf).map some ++ []), cars.length) := by
  rw [dataArrayToProtobufArrayPtr, untilNull_map_some, List.append_nil, List.map_map]
  rfl

theorem computes_getListByYear (hc : Counted list) :
    Computes list (invokeGetListByYearPtr u.inMemory list)
      (invokeGetListByYear u.msg list).2 := by
  have h := holds_inMemory u
  have hread : ∀ cars : List DataT, readPointers (some ((cars.map dataToProtobuf).map some ++ []))
      0 cars.length = .ok (cars.map dataToProtobuf) := fun cars => by
    rw [readPointers_map_some (by simp), List.drop_zero, List.take_of_length_le (by simp)]
  rw [invokeGetListByYearPtr, invokeGetListByYear, inMemory_result]
  by_cases hyear : u.msg.result ≠ -1
  · have hfill : listGetByYearPtr list u.msg.result =
        .ok ((listGetByYear list u.msg.result).map some ++ [none]) :=
      fill_eq (by rw [listGetByYear, List.countP_eq_length_filter])
    rw [if_pos hyear, if_pos hyear, hfill]
    simp only [bind, Except.bind, dataArrayToProtobufArrayPtr_eq, pure, Except.pure]
    exact computes_of_eq rfl (readMessage_eq ⟨h.models, hread _⟩)
  · have hlen := (listOrderByYear_perm list).length_eq
    have hfill : listGetAllPtr (listOrderByYear list) =
        .ok ((listOrderByYear list).head.map some ++ [none]) := by
      refine fill_eq ?_
      have hsize : (listOrderByYear list).size = list.size := rfl
      rw [Counted] at hc
      omega
    rw [if_neg hyear, if_neg hyear]
    simp only [hfill, bind, Except.bind, dataArrayToProtobufArrayPtr_eq, pure, Except.pure]
    exact computes_of_eq rfl (readMessage_eq ⟨h.models, hread _⟩)

theorem computes_getModels (hc : Counted list) :
    Computes list (invokeGetModelsPtr u.inMemory list) (invokeGetModels u.msg list).2 := by
  have h := holds_inMemory u
  have hfill : listGetModelListPtr list = .ok ((listGetModelList list).map some ++ [none]) := by
    refine fill_eq ?_
    rw [Counted] at hc
    rw [List.length_map]
    omega
  have hread : ∀ n, n ≤ list.head.length → readPointers
      (some ((listGetModelList list).map some ++ [none])) 0 n =
        .ok ((listGetModelList list).take n) := fun n hn => by
    rw [readPointers_map_some (by rw [listGetModelList, List.length_map]; omega), List.drop_zero]
  have hle : toSizeT (listSize list) ≤ list.head.length := by
    rw [Counted] at hc
    rw [toSizeT, listSize]
    omega
  rw [invokeGetModelsPtr, hfill]
  simp only [bind, Except.bind, pure, Except.pure]
  refine ⟨_, _, rfl, readMessage_eq ⟨hread _ hle, h.cars⟩, fun hmax => ?_⟩
  have hn := toSizeT_models hc hmax
  simp only [hn, List.take_length]
  rw [invokeGetModels, hn]
  rfl

theorem computes_del : Computes list (invokeDelPtr u.inMemory list) (invokeDel u.msg list).2 := by
  have h := holds_inMemory u
  rw [invokeDelPtr, invokeDel, inMemory_nModels]
  by_cases hone : u.msg.nModels = 1
  · rw [if_neg (not_not.mpr hone), if_neg (not_not.mpr hone)]
    obtain ⟨modelo, hmodels⟩ := List.length_eq_one_iff.mp (u.models.symm.trans hone)
    have hhead : u.msg.models.head? = some modelo := by
      rw [hmodels]
      rfl
    rw [index_models hmodels, hhead]
    exact computes_of_eq rfl (readMessage_eq ⟨h.models, h.cars⟩)
  · rw [if_pos hone, if_pos hone]
    exact computes_error

end Branches

/-- On pointers, `invoke` does what it does on values, without a fault. -/
theorem invokePtr_computes (t : AnoAtual) (u : Unpacked) {list : ListT} (hc : Counted list) :
    Computes list (invokePtr t u.inMemory list) (serve t u.msg list) := by
  rw [invokePtr, serve, invoke, inMemory_opcode]
  split
  · exact computes_size
  split
  · exact computes_add t
  split
  · exact computes_get
  split
  · exact computes_getListByYear hc
  split
  · exact computes_getModels hc
  split
  · exact computes_del
  · exact computes_error

theorem zooForwardPtr_eq (next : Bool) (resp : Option MessageT) (u : Unpacked) :
    zooForwardPtr next resp u.inMemory = .ok (zooForwardToSuccessor next resp) := by
  rw [zooForwardPtr, readMessage_inMemory]
  cases next <;> rfl

/-- The code with which `client_thread` goes on. -/
def forwardCode (next : Bool) (resp : Option MessageT) (msg : MessageT) : Int :=
  if needsForward msg then zooForwardToSuccessor next resp else 0

theorem executePtr_computes (t : AnoAtual) (next : Bool) (resp : Option MessageT) (u : Unpacked)
    {list : ListT} (hc : Counted list) :
    Computes list (executePtr t next resp u.inMemory list)
      (afterForward t (forwardCode next resp u.msg) u.msg list) := by
  have h := holds_inMemory u
  have hinvoke := invokePtr_computes t u hc
  have hneeds : (u.msg.opcode = opAdd ∨ u.msg.opcode = opDel ∨ u.msg.opcode = opOrder) ↔
      needsForward u.msg = true := by
    simp [needsForward, or_assoc]
  rw [executePtr, inMemory_opcode, forwardCode]
  by_cases hf : needsForward u.msg = true
  · rw [if_pos (hneeds.mpr hf), if_pos hf, zooForwardPtr_eq, afterForward]
    simp only [bind, Except.bind]
    generalize zooForwardToSuccessor next resp = rc
    by_cases halone : rc = -2
    · rw [if_pos halone, if_pos halone]
      exact hinvoke
    rw [if_neg halone, if_neg halone]
    by_cases hrc : rc ≠ 0
    · rw [if_pos hrc, if_pos hrc]
      exact computes_of_eq rfl (readMessage_eq ⟨h.models, h.cars⟩)
    · rw [if_neg hrc, if_neg hrc]
      exact hinvoke
  · rw [if_neg (fun hn => hf (hneeds.mp hn)), if_neg hf]
    exact hinvoke

/-- The logger reads the first model of an `OP_DEL` without looking at the
count. -/
theorem writeInServerLog_del {u : Unpacked} (h : u.msg.opcode = opDel) (hn : u.msg.nModels = 0) :
    writeInServerLog u.inMemory = .error .null := by
  have hne : ¬ opDel = opAdd := by decide
  have hnil : u.msg.models = [] := List.length_eq_zero_iff.mp (u.models.symm.trans hn)
  rw [writeInServerLog, inMemory_opcode, h, if_neg hne, if_pos rfl, inMemory_models, hnil]
  rfl

theorem fromData_ok {α : Type} (msg : MessagePtr) (f : Data → α) (absent : α) :
    ∃ x, fromData msg f absent = .ok x := by
  rw [fromData]
  cases msg.data with
  | none => exact ⟨absent, rfl⟩
  | some d => exact ⟨f d, rfl⟩

theorem writeInServerLog_ok {u : Unpacked} (h : u.msg.opcode = opDel → u.msg.nModels ≠ 0) :
    ∃ line, writeInServerLog u.inMemory = .ok line := by
  rw [writeInServerLog, inMemory_opcode]
  split
  · obtain ⟨modelo, hmodelo⟩ := fromData_ok u.inMemory Data.modelo none
    obtain ⟨marca, hmarca⟩ := fromData_ok u.inMemory Data.marca 0
    obtain ⟨comb, hcomb⟩ := fromData_ok u.inMemory Data.combustivel 0
    obtain ⟨ano, hano⟩ := fromData_ok u.inMemory Data.ano 0
    obtain ⟨preco, hpreco⟩ := fromData_ok u.inMemory Data.preco Single.zero
    rw [hmodelo, hmarca, hcomb, hano, hpreco]
    exact ⟨_, rfl⟩
  split
  next hdel =>
    cases hm : u.msg.models with
    | nil => exact absurd (u.models.trans (congrArg List.length hm)) (h hdel)
    | cons m models =>
      rw [index_models hm]
      exact ⟨_, rfl⟩
  split
  · exact ⟨_, rfl⟩
  split <;> exact ⟨_, rfl⟩

/-- Once it is logged, a request is handled without a fault, and as on values. -/
theorem handle_computes (t : AnoAtual) (next : Bool) (resp : Option MessageT) {u : Unpacked}
    (h : u.msg.opcode = opDel → u.msg.nModels ≠ 0) {list : ListT} (hc : Counted list) :
    ∃ p m, handle t next resp u.inMemory list =
        .ok (p, (afterForward t (forwardCode next resp u.msg) u.msg list).2, networkSend m) ∧
      readMessage p = .ok m ∧
      (list.size ≤ intMax → m = (afterForward t (forwardCode next resp u.msg) u.msg list).1) := by
  obtain ⟨line, hline⟩ := writeInServerLog_ok h
  obtain ⟨p, m, hexec, hread, hm⟩ := executePtr_computes t next resp u hc
  refine ⟨p, m, ?_, hread, hm⟩
  rw [handle, hline, hexec]
  simp only [bind, Except.bind, networkSendPtr, hread]
  rfl

/-- The handling of a request reads no NULL pointer and nothing beyond a count
exactly if the request is no `OP_DEL` without a model. -/
theorem handle_safe_iff (t : AnoAtual) (next : Bool) (resp : Option MessageT) (u : Unpacked)
    (l : BuiltList) : (∃ r, handle t next resp u.inMemory l.list = .ok r) ↔
      (u.msg.opcode = opDel → u.msg.nModels ≠ 0) := by
  constructor
  · rintro ⟨r, hr⟩ hdel hn
    rw [handle, writeInServerLog_del hdel hn] at hr
    cases hr
  · intro h
    obtain ⟨p, m, hr, -, -⟩ := handle_computes t next resp h l.counted
    exact ⟨_, hr⟩

/-- An `OP_DEL` with no model, which is two fields on the wire. -/
def emptyDel : Unpacked :=
  ⟨{ MessageT.init with opcode := opDel, cType := ctModel }, rfl, rfl, by simp [MessageT.init]⟩

theorem emptyDel_faults :
    handle (.same 2026) false none emptyDel.inMemory listCreate = .error .null := rfl

end ListServer.RequestSafety
