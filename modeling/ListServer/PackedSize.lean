import ListServer.StoredCars
import ListServer.Lib.Wire

namespace ListServer.PackedSize

open Lib.CTypes Lib.Wire CarData CarList Message Skeleton ClientStub ListTransfer StoredCars

def dataGetPackedSize (d : Data) : Nat :=
  int32Field 1 d.ano + floatField 2 d.preco.isZero + int32Field 3 d.marca +
    stringField 4 (d.modelo.elim 0 fun m => m.bytes.length) + int32Field 5 d.combustivel

def messageTGetPackedSize (msg : MessageT) : Nat :=
  int32Field 1 msg.opcode + int32Field 2 msg.cType +
    messageField 3 (msg.data.map dataGetPackedSize) + sint32Field 6 msg.result +
    repeatedField 7 ((msg.models.take msg.nModels).map fun m => m.bytes.length) +
    repeatedField 8 ((msg.cars.take msg.nCars).map dataGetPackedSize)

/-- The code returned when the socket takes all bytes. -/
def networkSend (msg : MessageT) : Int :=
  let len := messageTGetPackedSize msg
  if len = 0 ∨ len > 0xFFFF then -1 else 0

/-- A price that is 0 is left out of the frame, and 0.0 is read in its place. -/
def priceOverWire (preco : Single) : Single := if preco.isZero then Single.zero else preco

/-- A string that is NULL is left out as well, and arrives as an empty one. -/
def dataOverWire (d : Data) : Data :=
  { d with preco := priceOverWire d.preco, modelo := some (d.modelo.getD .empty) }

def overWire (msg : MessageT) : MessageT :=
  { msg with
    data := msg.data.map dataOverWire
    models := msg.models.take msg.nModels
    cars := (msg.cars.take msg.nCars).map dataOverWire }

/-- The price is not -0.0. -/
def SamePrice (preco : Single) : Prop := preco.isZero = true → preco = Single.zero

instance (preco : Single) : Decidable (SamePrice preco) := inferInstanceAs (Decidable (_ → _))

theorem priceOverWire_eq {preco : Single} : priceOverWire preco = preco ↔ SamePrice preco := by
  rw [priceOverWire, SamePrice]
  split
  next hz => exact ⟨fun h _ => h.symm, fun h => (h hz).symm⟩
  next hz => exact ⟨fun _ h => absurd h hz, fun _ => rfl⟩

theorem priceOverWire_idem (preco : Single) :
    priceOverWire (priceOverWire preco) = priceOverWire preco := by
  refine priceOverWire_eq.mpr fun hz => ?_
  rw [priceOverWire] at hz ⊢
  split
  next => rfl
  next hne => exact absurd (by rwa [if_neg hne] at hz) hne

/-- A message that has been unpacked arrives at the next server as it is. -/
theorem overWire_overWire (msg : MessageT) : overWire (overWire msg) = overWire msg := by
  have hcomp : dataOverWire ∘ dataOverWire = dataOverWire := by
    funext d
    simp only [Function.comp_apply, dataOverWire, priceOverWire_idem, Option.getD_some]
  simp only [overWire, Option.map_map, hcomp, List.take_take, Nat.min_self, ← List.map_take,
    List.map_map]

/-- The requests that expect an answer: the calls of a client and the request
of a joining server. -/
inductive Query
  | stub (q : Call)
  | getListAdd
deriving DecidableEq, Repr

def Query.message : Query → Option MessageT
  | .stub q => q.message
  | .getListAdd => some rlistGetListAddRequest

def resultSize (result : Int) : Nat := 4 + sint32Field 6 result

def carSize (car : DataT) : Nat := 1 + block (dataGetPackedSize (dataToProtobuf car))

def modelSize (m : CString) : Nat := 1 + block m.bytes.length

def carsSize (cars : List DataT) : Nat := (cars.map carSize).sum

/-- The size of the reply to a query whose request has `n` bytes. -/
def answerSize (t : AnoAtual) (list : ListT) (n : Nat) : Query → Nat
  | .stub (.add car) => if Valid t.create car ∧ Valid t.dup car then n else n + 2
  | .stub (.removeByModel modelo) => if modelo ∈ listGetModelList list then n else n + 2
  | .stub (.getByMarca marca) =>
    match listGetByMarca list marca with
    | none => resultSize (-1)
    | some car => resultSize marca + carSize car
  | .stub (.getByYear ano) =>
    if ano = -1 then resultSize (-1) + carsSize list.head
    else resultSize ano + carsSize (listGetByYear list ano)
  | .stub .orderByYear | .getListAdd => resultSize (-1) + carsSize list.head
  | .stub .size => resultSize list.size
  | .stub .getModelList => 4 + ((listGetModelList list).map modelSize).sum

/-- The condition under which a query is answered. A refused addition or a
removal that finds nothing has a reply that is two bytes longer than its
request, and a read needs room for what it returns. -/
def Fits (t : AnoAtual) (list : ListT) (n : Nat) : Query → Prop
  | .stub (.add car) => (Valid t.create car ∧ Valid t.dup car) ∨ n ≤ 65533
  | .stub (.removeByModel modelo) => modelo ∈ listGetModelList list ∨ n ≤ 65533
  | .stub (.getByMarca marca) =>
    ∀ car, listGetByMarca list marca = some car → resultSize marca + carSize car ≤ 65535
  | .stub (.getByYear ano) =>
    if ano = -1 then resultSize (-1) + carsSize list.head ≤ 65535
    else resultSize ano + carsSize (listGetByYear list ano) ≤ 65535
  | .stub .orderByYear | .getListAdd => resultSize (-1) + carsSize list.head ≤ 65535
  | .stub .size => True
  | .stub .getModelList => 4 + ((listGetModelList list).map modelSize).sum ≤ 65535

theorem toSizeT_models {list : ListT} (hc : Counted list) (hmax : list.size ≤ intMax) :
    toSizeT (listSize list) = (listGetModelList list).length := by
  rw [Counted] at hc
  rw [listGetModelList, List.length_map]
  simp only [intMax] at hmax
  simp only [toSizeT, listSize, hc]
  omega

theorem dataOverWire_dataToProtobuf {car : DataT} :
    dataOverWire (dataToProtobuf car) = dataToProtobuf car ↔ SamePrice car.preco := by
  rw [← priceOverWire_eq]
  simp [dataOverWire, dataToProtobuf]

/-- What a message needs to arrive as it is. -/
structure Unaltered (msg : MessageT) : Prop where
  data : ∀ d, msg.data = some d → dataOverWire d = d
  models : msg.models.length ≤ msg.nModels
  count : msg.cars.length ≤ msg.nCars
  cars : ∀ d ∈ msg.cars, dataOverWire d = d

section Unaltered

variable {msg : MessageT} {list : ListT}

theorem Unaltered.eq (h : Unaltered msg) : overWire msg = msg := by
  have hdata : msg.data.map dataOverWire = msg.data := by
    cases hd : msg.data with
    | none => rfl
    | some d => exact congrArg some (h.data d hd)
  rw [overWire, hdata, List.take_of_length_le h.models, List.take_of_length_le h.count,
    List.map_congr_left h.cars, List.map_id']

theorem Unaltered.error (h : Unaltered msg) : Unaltered msg.error :=
  ⟨h.data, h.models, h.count, h.cars⟩

theorem Unaltered.sendCars (h : Unaltered msg) {cars : List DataT}
    (hprices : ∀ car ∈ cars, SamePrice car.preco) (opcode cType result : Int) :
    Unaltered { msg with
      cars := cars.map dataToProtobuf, nCars := cars.length, opcode := opcode, cType := cType
      result := result } := by
  refine ⟨h.data, h.models, Nat.le_of_eq (List.length_map _), fun d hd => ?_⟩
  obtain ⟨car, hcar, rfl⟩ := List.mem_map.mp hd
  exact dataOverWire_dataToProtobuf.mpr (hprices car hcar)

/-- The replies to such messages arrive as they are if no price in the list is -0.0. -/
theorem Unaltered.reply (h : Unaltered msg) (t : AnoAtual) (hc : Counted list)
    (hmax : list.size ≤ intMax) (hprices : ∀ car ∈ list.head, SamePrice car.preco) :
    Unaltered (reply t msg list) := by
  rw [Skeleton.reply, serve, invoke]
  split
  · rw [invokeSize]
    split <;> exact ⟨h.data, h.models, h.count, h.cars⟩
  split
  · rw [invokeAdd]
    split
    · exact h.error
    · split
      · exact h.error
      · dsimp only
        split
        · exact ⟨h.data, h.models, h.count, h.cars⟩
        · exact h.error
  split
  · rw [invokeGet]
    split
    · split
      next => exact h.error
      next car hcar =>
        refine ⟨fun d hd => ?_, h.models, h.count, h.cars⟩
        rw [← Option.some.inj hd]
        exact dataOverWire_dataToProtobuf.mpr (hprices car (List.mem_of_find?_eq_some hcar))
    · exact h
  split
  · rw [invokeGetListByYear]
    split
    · exact h.sendCars (fun car hcar => hprices car (List.mem_of_mem_filter hcar)) _ _ _
    · exact h.sendCars (fun car hcar =>
        hprices car ((listOrderByYear_perm list).mem_iff.mp hcar)) _ _ _
  split
  · exact ⟨h.data, Nat.le_of_eq (toSizeT_models hc hmax).symm, h.count, h.cars⟩
  split
  · rw [invokeDel]
    split
    · exact h.error
    · exact ⟨h.data, h.models, h.count, h.cars⟩
  · exact h.error

theorem unaltered_message {q : Call} (hq : q.message = some msg)
    (hprice : ∀ car, q = .add car → SamePrice car.preco) : Unaltered msg := by
  cases q with
  | add car =>
    obtain rfl := addRequest_of_message hq
    refine ⟨fun d hd => ?_, Nat.le_refl 0, Nat.le_refl 0, fun d hd => absurd hd List.not_mem_nil⟩
    rw [← Option.some.inj hd]
    exact dataOverWire_dataToProtobuf.mpr (hprice car rfl)
  | getByMarca marca =>
    have hget : rlistGetByMarcaRequest marca = some msg := hq
    rw [rlistGetByMarcaRequest_eq] at hget
    obtain rfl := Option.some.inj (Option.ite_none_right_eq_some.mp hget).2
    exact ⟨nofun, Nat.le_refl 0, Nat.le_refl 0, fun d hd => absurd hd List.not_mem_nil⟩
  | removeByModel modelo =>
    obtain rfl := Option.some.inj hq
    exact ⟨nofun, Nat.le_refl 1, Nat.le_refl 0, fun d hd => absurd hd List.not_mem_nil⟩
  | getByYear | orderByYear | size | getModelList =>
    obtain rfl := Option.some.inj hq
    exact ⟨nofun, Nat.le_refl 0, Nat.le_refl 0, fun d hd => absurd hd List.not_mem_nil⟩

theorem samePrice_after (h : Unaltered msg) (t : AnoAtual)
    (hprices : ∀ car ∈ list.head, SamePrice car.preco) :
    ∀ car ∈ (after t msg list).head, SamePrice car.preco := by
  intro car hcar
  obtain hcar | ⟨-, hacc⟩ := mem_after hcar
  · exact hprices car hcar
  · exact dataOverWire_dataToProtobuf.mp (h.data _ (accepted_eq_some.mp hacc).1)

end Unaltered

@[simp] theorem messageField_data (car : DataT) :
    messageField 3 ((some (dataToProtobuf car)).map dataGetPackedSize) = carSize car := rfl

@[simp] theorem repeatedField_cars (cars : List DataT) :
    repeatedField 8 ((cars.map dataToProtobuf).map dataGetPackedSize) = carsSize cars := by
  rw [repeatedField, List.map_map, List.map_map]
  rfl

@[simp] theorem repeatedField_models (models : List CString) :
    repeatedField 7 (models.map fun m => m.bytes.length) = (models.map modelSize).sum := by
  rw [repeatedField, List.map_map]
  rfl

theorem packedSize_cars {msg : MessageT} {cars : List DataT} (hop : int32Field 1 msg.opcode = 2)
    (hct : int32Field 2 msg.cType = 2) (hd : msg.data = none) (hm : msg.nModels = 0)
    (hc : msg.cars = cars.map dataToProtobuf) (hn : msg.nCars = cars.length) :
    messageTGetPackedSize msg = resultSize msg.result + carsSize cars := by
  have htake : (cars.map dataToProtobuf).take cars.length = cars.map dataToProtobuf :=
    List.take_of_length_le (by simp)
  simp only [messageTGetPackedSize, hop, hct, hd, hm, hc, hn, htake, repeatedField_cars,
    List.take_zero, List.map_nil, repeatedField_nil, Option.map_none, messageField, resultSize]
  omega

theorem packedSize_data {msg : MessageT} (hop : int32Field 1 msg.opcode = 2)
    (hct : int32Field 2 msg.cType = 2) (hm : msg.nModels = 0) (hc : msg.nCars = 0) :
    messageTGetPackedSize msg =
      resultSize msg.result + messageField 3 (msg.data.map dataGetPackedSize) := by
  simp only [messageTGetPackedSize, hop, hct, hm, hc, List.take_zero, List.map_nil,
    repeatedField_nil, resultSize]
  omega

theorem packedSize_models {msg : MessageT} {models : List CString}
    (hop : int32Field 1 msg.opcode = 2) (hct : int32Field 2 msg.cType = 2) (hd : msg.data = none)
    (hm : msg.models = models) (hn : msg.nModels = models.length) (hc : msg.nCars = 0) :
    messageTGetPackedSize msg = resultSize msg.result + (models.map modelSize).sum := by
  simp only [messageTGetPackedSize, hop, hct, hd, hm, hn, hc, List.take_length,
    repeatedField_models, List.take_zero, List.map_nil, repeatedField_nil, Option.map_none,
    messageField, resultSize]
  omega

theorem packedSize_error {msg : MessageT} {d : Option Data} (hd : msg.data = d)
    (hm : msg.nModels = 0) (hc : msg.nCars = 0) : messageTGetPackedSize msg.error =
      resultSize (-1) + messageField 3 (d.map dataGetPackedSize) := by
  rw [← hd]
  exact packedSize_data rfl rfl hm hc

variable (t : AnoAtual) (list : ListT)

/-- The request to add a car and the reply differ in the result only. -/
theorem packedSize_reply_add (car : DataT) : messageTGetPackedSize (reply t (addRequest car) list) =
    answerSize t list (messageTGetPackedSize (addRequest car)) (.stub (.add car)) := by
  have hreq : messageTGetPackedSize (addRequest car) = 4 + carSize car :=
    packedSize_data rfl rfl rfl rfl
  have hadd : (addRequest car).opcode = opAdd := rfl
  rw [reply, serve_add hadd, hreq, accepted_addRequest]
  by_cases hv : Valid t.create car ∧ Valid t.dup car
  · simp only [answerSize, if_pos hv]
    exact packedSize_data rfl rfl rfl rfl
  · simp only [answerSize, if_neg hv]
    rw [packedSize_error (d := some (dataToProtobuf car)) rfl rfl rfl, messageField_data]
    have hres : resultSize (-1) = 6 := by decide
    omega

theorem packedSize_reply_removeByModel (modelo : CString) :
    messageTGetPackedSize (reply t (rlistRemoveByModelRequest modelo) list) =
      answerSize t list (messageTGetPackedSize (rlistRemoveByModelRequest modelo))
        (.stub (.removeByModel modelo)) := by
  have hreq : messageTGetPackedSize (rlistRemoveByModelRequest modelo) =
      resultSize 0 + ([modelo].map modelSize).sum := packedSize_models rfl rfl rfl rfl rfl rfl
  have hdel : (rlistRemoveByModelRequest modelo).opcode = opDel := rfl
  have hn : ¬ (rlistRemoveByModelRequest modelo).nModels ≠ 1 := fun h => h rfl
  have hrc : (listRemoveByModel list (rlistRemoveByModelRequest modelo).models.head?).1 =
      if modelo ∈ listGetModelList list then 0 else 1 := (remove_models modelo list).1
  rw [reply, serve_del hdel, if_neg hn, hrc, hreq]
  dsimp only
  rw [@packedSize_models _ [modelo] rfl rfl rfl rfl rfl rfl]
  simp only [MessageT.deleted, answerSize]
  have hres0 : resultSize 0 = 4 := by decide
  have hres1 : resultSize 1 = 6 := by decide
  split <;> omega

theorem packedSize_reply_getByMarca (marca : Int) (n : Nat) :
    messageTGetPackedSize (reply t (getByMarcaRequest marca) list) =
      answerSize t list n (.stub (.getByMarca marca)) := by
  rw [reply, serve_getByMarca, answerSize]
  cases listGetByMarca list marca with
  | none => exact packedSize_error rfl rfl rfl
  | some car => exact packedSize_data rfl rfl rfl rfl

theorem packedSize_reply_list (n : Nat) :
    messageTGetPackedSize (reply t rlistGetListAddRequest list) =
      answerSize t list n .getListAdd := by
  have hperm := (listOrderByYear_perm list).map carSize
  rw [reply_list, packedSize_cars rfl rfl rfl rfl rfl rfl, answerSize, carsSize, carsSize,
    hperm.sum_eq]
  rfl

theorem packedSize_reply_getByYear (ano : Int) (n : Nat) :
    messageTGetPackedSize (reply t (rlistGetByYearRequest ano) list) =
      answerSize t list n (.stub (.getByYear ano)) := by
  by_cases hano : ano = -1
  · subst hano
    exact packedSize_reply_list t list n
  · rw [reply, serve_getByYear t list hano, answerSize, if_neg hano]
    exact packedSize_cars rfl rfl rfl rfl rfl rfl

variable {t list}

/-- The reply to every query has the size computed from its arguments and the
list. -/
theorem packedSize_reply {q : Query} {msg : MessageT} (hq : q.message = some msg)
    (hc : Counted list) (hmax : list.size ≤ intMax) : messageTGetPackedSize (reply t msg list) =
      answerSize t list (messageTGetPackedSize msg) q := by
  have hsize : listSize list ≠ -1 := by
    rw [listSize, hc]
    omega
  cases q with
  | getListAdd =>
    obtain rfl := Option.some.inj hq
    exact packedSize_reply_list t list _
  | stub q =>
    cases q with
    | add car =>
      obtain rfl := addRequest_of_message hq
      exact packedSize_reply_add t list car
    | removeByModel modelo =>
      obtain rfl := Option.some.inj hq
      exact packedSize_reply_removeByModel t list modelo
    | getByMarca marca =>
      obtain rfl := getByMarcaRequest_of_message hq
      exact packedSize_reply_getByMarca t list marca _
    | getByYear ano =>
      obtain rfl := Option.some.inj hq
      exact packedSize_reply_getByYear t list ano _
    | orderByYear =>
      obtain rfl := Option.some.inj hq
      exact packedSize_reply_list t list 0
    | size =>
      obtain rfl := Option.some.inj hq
      rw [reply, serve_size t list hsize]
      exact packedSize_data rfl rfl rfl rfl
    | getModelList =>
      obtain rfl := Option.some.inj hq
      rw [reply, serve_getModelList, toSizeT_models hc hmax]
      exact packedSize_models rfl rfl rfl rfl rfl rfl

theorem resultSize_bounds (result : Int) : 4 ≤ resultSize result ∧ resultSize result ≤ 10 := by
  have h := sint32Field_le (show 6 < 16 by omega) result
  rw [resultSize]
  omega

theorem answerSize_le_iff {t : AnoAtual} {list : ListT} {n : Nat} (hn : n ≤ 65535) (q : Query) :
    answerSize t list n q ≤ 65535 ↔ Fits t list n q := by
  cases q with
  | getListAdd => rfl
  | stub q =>
    cases q with
    | add car =>
      simp only [answerSize, Fits]
      split <;> simp_all
    | removeByModel modelo =>
      simp only [answerSize, Fits]
      split <;> simp_all
    | getByMarca marca =>
      have hbound := (resultSize_bounds (-1)).2
      simp only [answerSize, Fits]
      cases listGetByMarca list marca with
      | none => simp; omega
      | some car => simp
    | getByYear ano =>
      simp only [answerSize, Fits]
      split <;> rfl
    | orderByYear => rfl
    | size =>
      have hbound := (resultSize_bounds list.size).2
      simp only [answerSize, Fits, iff_true]
      omega
    | getModelList => rfl

theorem messageTGetPackedSize_pos {msg : MessageT} (h : msg.opcode ≠ 0) :
    1 ≤ messageTGetPackedSize msg := by
  have htag := tag_of_lt (show 1 < 16 by omega)
  simp only [messageTGetPackedSize, int32Field, if_neg h]
  omega

theorem networkSend_eq_zero (msg : MessageT) : networkSend msg = 0 ↔
    1 ≤ messageTGetPackedSize msg ∧ messageTGetPackedSize msg ≤ 65535 := by
  simp only [networkSend]
  split <;> omega

theorem message_opcode {q : Query} {msg : MessageT} (hq : q.message = some msg) :
    msg.opcode ≠ 0 := by
  cases q with
  | getListAdd =>
    obtain rfl := Option.some.inj hq
    decide
  | stub q =>
    cases q with
    | add car =>
      obtain rfl := addRequest_of_message hq
      simp [addRequest, opAdd]
    | getByMarca marca =>
      obtain rfl := getByMarcaRequest_of_message hq
      simp [getByMarcaRequest, opGet]
    | removeByModel | getByYear | orderByYear | size | getModelList =>
      obtain rfl := Option.some.inj hq
      simp [rlistRemoveByModelRequest, rlistGetByYearRequest, rlistOrderByYearRequest,
        rlistSizeRequest, rlistGetModelListRequest, opDel, opGetListByYear, opSize, opGetModels]

theorem answerSize_pos {n : Nat} (t : AnoAtual) (list : ListT) (hn : 1 ≤ n) (q : Query) :
    1 ≤ answerSize t list n q := by
  have hres : ∀ result n, 1 ≤ resultSize result + n := fun result n => by
    have h := resultSize_bounds result
    omega
  cases q with
  | getListAdd => exact hres (-1) _
  | stub q =>
    cases q with
    | add | removeByModel =>
      simp only [answerSize]
      split <;> omega
    | getByMarca marca =>
      simp only [answerSize]
      cases listGetByMarca list marca with
      | none => exact hres (-1) 0
      | some car => exact hres marca _
    | getByYear ano =>
      simp only [answerSize]
      split
      · exact hres (-1) _
      · exact hres ano _
    | orderByYear => exact hres (-1) _
    | size => exact hres list.size 0
    | getModelList =>
      simp only [answerSize]
      omega

theorem reply_pos {ano : Int} {list : ListT} {q : Query} {msg : MessageT} (h : Reached ano list)
    (hq : q.message = some msg) (t : AnoAtual) : 1 ≤ messageTGetPackedSize (reply t msg list) := by
  rw [packedSize_reply hq h.wellFormed.size h.counter]
  exact answerSize_pos t list (messageTGetPackedSize_pos (message_opcode hq)) q

/-- The reply to a query is never empty, and `network_send` sends it exactly if
what the query returns fits. -/
theorem answered_iff {ano : Int} {list : ListT} {q : Query} {msg : MessageT}
    (h : Reached ano list) (hq : q.message = some msg)
    (hfit : messageTGetPackedSize msg ≤ 65535) (t : AnoAtual) :
    1 ≤ messageTGetPackedSize (reply t msg list) ∧
      (messageTGetPackedSize (reply t msg list) ≤ 65535 ↔
        Fits t list (messageTGetPackedSize msg) q) ∧
      (networkSend (reply t msg list) = 0 ↔ Fits t list (messageTGetPackedSize msg) q) := by
  have hpos := reply_pos h hq t
  have hle : messageTGetPackedSize (reply t msg list) ≤ 65535 ↔
      Fits t list (messageTGetPackedSize msg) q := by
    rw [packedSize_reply hq h.wellFormed.size h.counter, answerSize_le_iff hfit]
  rw [networkSend_eq_zero]
  exact ⟨hpos, hle, (and_iff_right hpos).trans hle⟩

theorem reached_create (ano : Int) : Reached ano listCreate :=
  ⟨⟨ano, [], _, rfl, rfl, le_refl ano⟩, by decide⟩

def letters (n : Nat) : CString :=
  ⟨List.replicate n 65, fun b hb => by
    rw [List.eq_of_mem_replicate hb]
    decide⟩

theorem length_letters (n : Nat) : (letters n).bytes.length = n := List.length_replicate

def carOf (modelo : CString) : DataT := { toyota 2020 with modelo := modelo }

theorem valid_carOf (modelo : CString) : Valid 2026 (carOf modelo) := by
  rw [Valid]
  rfl

theorem carSize_carOf {modelo : CString} (h : modelo.bytes.length = 40000) :
    carSize (carOf modelo) = 40011 := by
  have hdata : dataGetPackedSize (dataToProtobuf (carOf modelo)) =
      3 + 0 + 0 + stringField 4 modelo.bytes.length + 0 := rfl
  rw [carSize, hdata, h]
  decide

theorem step_carOf (modelo : CString) (list : ListT) :
    step ⟨2026, list⟩ (turn (addRequest (carOf modelo))) =
      some ⟨2026, ⟨list.size + 1, list.head ++ [carOf modelo]⟩⟩ := by
  have hvalid := valid_carOf modelo
  have hacc : accepted (.same 2026) (addRequest (carOf modelo)) = some (carOf modelo) := by
    rw [accepted_addRequest]
    exact if_pos ⟨hvalid, hvalid⟩
  have hafter : after (.same 2026) (addRequest (carOf modelo)) list =
      ⟨list.size + 1, list.head ++ [carOf modelo]⟩ := by
    rw [after_add rfl, hacc]
  rw [step_eq_some]
  refine ⟨⟨le_refl _, le_refl _⟩, ?_⟩
  rw [afterForward_list, if_pos (.inr rfl)]
  exact congrArg (State.mk 2026) hafter

theorem reached_carOf (modelo : CString) :
    Reached 2026 ⟨2, [carOf modelo, carOf modelo]⟩ := by
  have hrun : Lib.Transition.run step (State.start 2026)
      [turn (addRequest (carOf modelo)), turn (addRequest (carOf modelo))] =
        some ⟨2026, ⟨2, [carOf modelo, carOf modelo]⟩⟩ := by
    rw [Lib.Transition.run, State.start, step_carOf, Option.bind_some, Lib.Transition.run,
      step_carOf]
    rfl
  have hmax : (2 : Int) ≤ intMax := by decide
  exact ⟨⟨2026, _, _, hrun, rfl, le_refl 2026⟩, hmax⟩

theorem packedSize_carOf {modelo : CString} (h : modelo.bytes.length = 40000) :
    messageTGetPackedSize (addRequest (carOf modelo)) = 40015 ∧
      messageTGetPackedSize (reply (.same 2026) rlistGetListAddRequest
        ⟨2, [carOf modelo, carOf modelo]⟩) = 80028 := by
  have hsize := carSize_carOf h
  have hadd : messageTGetPackedSize (addRequest (carOf modelo)) = 4 + carSize (carOf modelo) :=
    packedSize_data rfl rfl rfl rfl
  have hres : resultSize (-1) = 6 := by decide
  rw [packedSize_reply_list (.same 2026) _ 0, answerSize, carsSize, List.map_cons, List.map_cons,
    List.sum_cons, List.sum_cons, hsize, hadd, hsize, hres]
  exact ⟨rfl, rfl⟩

/-- Of a list of two such cars, which fits no frame, the first one is sent. -/
theorem answered_first :
    networkSend (reply (.same 2026) (getByMarcaRequest marcaToyota)
      ⟨2, [carOf (letters 40000), carOf (letters 40000)]⟩) = 0 := by
  refine (answered_iff (q := .stub (.getByMarca marcaToyota)) (reached_carOf (letters 40000)) rfl
    (by decide) (.same 2026)).2.2.mpr fun car hcar => ?_
  obtain rfl : carOf (letters 40000) = car := Option.some.inj hcar
  have hres : resultSize marcaToyota = 4 := by decide
  rw [carSize_carOf (length_letters 40000), hres]
  decide

/-- Two cars that fit a frame each make a list that fits none. -/
theorem list_unanswered :
    Reached 2026 ⟨2, [carOf (letters 40000), carOf (letters 40000)]⟩ ∧
    messageTGetPackedSize (addRequest (carOf (letters 40000))) ≤ 65535 ∧
    messageTGetPackedSize rlistGetListAddRequest ≤ 65535 ∧
    ¬ messageTGetPackedSize (reply (.same 2026) rlistGetListAddRequest
      ⟨2, [carOf (letters 40000), carOf (letters 40000)]⟩) ≤ 65535 := by
  obtain ⟨hadd, hreply⟩ := packedSize_carOf (length_letters 40000)
  exact ⟨reached_carOf (letters 40000), by omega, by decide, by omega⟩

end ListServer.PackedSize
