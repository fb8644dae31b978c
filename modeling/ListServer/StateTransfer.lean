import ListServer.ChainServer
import ListServer.RequestSafety

namespace ListServer.StateTransfer

open Lib Lib.CTypes Lib.Pointer CarData CarList Message Skeleton ChainServer ListTransfer StoredCars
open PackedSize
open RequestSafety (MessagePtr readMessage readMessage_eq)

/-- The outcomes of `malloc` and `strdup` while the predecessor answers: the array
of `list_get_all`, the one of `data_array_to_protobuf_array`, and the record and
the string of each car. -/
structure Allocation where
  array : Bool
  converted : Bool
  data : Nat → Bool
  modelo : Nat → Bool

def dataToProtobuf (b : Allocation) (i : Nat) (car : DataT) : Option Data :=
  if b.data i then
    some ⟨car.ano, car.preco, car.marca, if b.modelo i then some car.modelo else none,
      car.combustivel⟩
  else none

def dataArrayToProtobufArray (b : Allocation) (cars : List DataT) :
    Option (List (Option Data)) × Nat :=
  if b.converted then (some (cars.mapIdx (dataToProtobuf b)), cars.length) else (none, 0)

def requestPtr : MessagePtr := ⟨opGetListByYear, ctResult, none, -1, 0, none, 0, none⟩

def invokeList (b : Allocation) (msg : MessagePtr) (list : ListT) : MessagePtr × ListT :=
  let list := listOrderByYear list
  if !b.array then (msg.error, list)
  else
    let (cars, n) := dataArrayToProtobufArray b (listGetAll list)
    ({ msg with cars := cars, nCars := n, opcode := msg.opcode + 1, cType := ctList }, list)

/-- What arrives at the new server. The predecessor crashes at a NULL among the
records that it packs, and sends no frame that is too long. -/
def answered (b : Allocation) (pred : ListT) : Option MessageT × ListT :=
  let (msg, pred) := invokeList b requestPtr pred
  (match readMessage msg with
    | .error _ => none
    | .ok msg => if networkSend msg = 0 then some (overWire msg) else none, pred)

/-- How far the exchange with the predecessor gets: its request is lost, its
reply is lost, or the connection holds. -/
inductive Exchange
  | requestLost
  | replyLost
  | through
deriving DecidableEq

/-- What `network_send_receive` gives, and the list of the predecessor then. -/
def Exchange.run (x : Exchange) (b : Allocation) (pred : ListT) : Option MessageT × ListT :=
  match x with
  | .requestLost => (none, pred)
  | .replyLost => (none, (answered b pred).2)
  | .through => answered b pred

/-- The loop of `rlist_get_list_add` from the index `i` on. `room i` says whether
`data_create` and `list_add` find the memory for a car. -/
def addCars (room : Nat → Bool) (t : AnoAtual) : Nat → List Data → ListT → Int × ListT
  | _, [], list => (0, list)
  | i, d :: ds, list =>
    match dataCreate t.create d.ano d.preco d.marca d.modelo d.combustivel with
    | none => (-1, list)
    | some car =>
      let (res, list) := if room i then listAdd t.dup list car else (-1, list)
      if res ≠ 0 then (-1, list) else addCars room t (i + 1) ds list

def rlistGetListAdd (room : Nat → Bool) (t : AnoAtual) (res : Option MessageT) (list : ListT) :
    Int × ListT :=
  match res with
  | none => (-1, list)
  | some res =>
    if !opSuccess res opGetListByYear ctList then (-1, list)
    else if res.nCars = 0 then (0, list)
    else addCars room t 0 (res.cars.take res.nCars) list

/-- The results of the calls that `init_list` makes, and of the allocations on
both sides. -/
structure Calls where
  zooGet : CString → Option CString
  rlistConnect : CString → Bool
  exchange : Exchange
  allocation : Allocation
  room : Nat → Bool
  rlistDisconnect : Int

/-- The return code, the new server's list and the list of its predecessor. -/
def initList (t : AnoAtual) (calls : Calls) (maximum : Int) (children : List CString)
    (pred list : ListT) : Int × ListT × ListT :=
  match initListPrev maximum children with
  | none => (1, list, pred)
  | some node =>
    match calls.zooGet (nodePath node) with
    | none => (-1, list, pred)
    | some data =>
      if !calls.rlistConnect (address data) then (-1, list, pred)
      else
        let (res, pred) := calls.exchange.run calls.allocation pred
        let (rc, list) := rlistGetListAdd calls.room t res list
        if rc = -1 then (-1, list, pred)
        else if calls.rlistDisconnect = -1 then (-1, list, pred)
        else (1, list, pred)

/-- What becomes of a car on its way: a price of -0.0 loses its sign, and a model
that could not be copied is empty. -/
def arrivedCar (b : Allocation) (i : Nat) (car : DataT) : DataT :=
  { car with
    preco := priceOverWire car.preco
    modelo := if b.modelo i then car.modelo else .empty }

def transferred (b : Allocation) (list : ListT) : ListT :=
  if b.converted then ⟨list.size, list.head.mapIdx (arrivedCar b)⟩ else listCreate

variable {ano : Int} {pred : ListT} {b : Allocation}

theorem invokeList_eq_reply (t : AnoAtual) (list : ListT) (harray : b.array = true)
    (hconverted : b.converted = true) (hrecords : ∀ i, b.data i = true ∧ b.modelo i = true) :
    readMessage (invokeList b requestPtr list).1 = .ok (reply t rlistGetListAddRequest list) := by
  have hcars : (listOrderByYear list).head.mapIdx (dataToProtobuf b) =
      ((listOrderByYear list).head.map Skeleton.dataToProtobuf).map some := by
    refine List.mapIdx_eq_iff.mpr fun i => ?_
    rw [List.map_map, List.getElem?_map]
    refine congrArg (fun f => Option.map f (listOrderByYear list).head[i]?) (funext fun car => ?_)
    rw [dataToProtobuf, if_pos (hrecords i).1, if_pos (hrecords i).2]
    rfl
  have hread := readPointers_map_some (i := 0)
    (a := (listOrderByYear list).head.map Skeleton.dataToProtobuf) (Nat.le_of_eq (Nat.zero_add _)) []
  rw [List.append_nil, List.drop_zero, List.take_length, List.length_map] at hread
  simp only [invokeList, harray, Bool.not_true, Bool.false_eq_true, if_false,
    dataArrayToProtobufArray, if_pos hconverted, listGetAll, hcars]
  rw [readMessage_eq ⟨rfl, hread⟩, reply_list]
  rfl

section Arrived

variable {car : DataT} {i : Nat}

theorem valid_arrivedCar (h : Valid ano car) (b : Allocation) (i : Nat) :
    Valid ano (arrivedCar b i car) := by
  obtain ⟨hyear, hprice, hmarca, hcomb⟩ := valid_iff.mp h
  refine valid_iff.mpr ⟨hyear, ?_, hmarca, hcomb⟩
  show (priceOverWire car.preco).lt Single.zero = false
  rw [priceOverWire]
  split
  · decide
  · exact hprice

theorem arrivedCar_eq : arrivedCar b i car = car ↔
    SamePrice car.preco ∧ (b.modelo i = true ∨ car.modelo.bytes = []) := by
  rw [← priceOverWire_eq]
  obtain ⟨ano, preco, marca, modelo, combustivel⟩ := car
  simp only [arrivedCar, DataT.mk.injEq, true_and, and_true]
  refine and_congr_right fun _ => ?_
  by_cases hm : b.modelo i = true
  · simp [hm]
  · simp [hm, CString.ext_iff, eq_comm]

theorem dataOverWire_of_read {cars : List DataT} {ds : List Data}
    (h : readPointers (some (cars.mapIdx (dataToProtobuf b))) 0 cars.length = .ok ds) :
    ds.map dataOverWire = (cars.mapIdx (arrivedCar b)).map Skeleton.dataToProtobuf := by
  rw [← List.length_mapIdx (f := dataToProtobuf b)] at h
  have hall : cars.mapIdx (dataToProtobuf b) = ds.map some :=
    @readPointers_append_eq_ok _ [] _ _ h
  apply List.ext_getElem?
  intro i
  have hi := congrArg (fun l => l[i]?) hall
  simp only [List.getElem?_mapIdx, List.getElem?_map] at hi ⊢
  cases hcar : cars[i]? with
  | none =>
    rw [hcar] at hi
    rw [Option.map_eq_none_iff.mp hi.symm]
    rfl
  | some car =>
    rw [hcar] at hi
    obtain ⟨d, hd, hsome⟩ := Option.map_eq_some_iff.mp hi.symm
    rw [hd]
    obtain ⟨-, hrecord⟩ := Option.ite_none_right_eq_some.mp hsome.symm
    obtain rfl := Option.some.inj hrecord
    rw [Option.map_some, Option.map_some, Option.map_some]
    refine congrArg some ?_
    by_cases hm : b.modelo i = true <;> simp [dataOverWire, arrivedCar, Skeleton.dataToProtobuf, hm]

end Arrived

section Fetched

variable {calls : Calls} {room : Nat → Bool} {t : AnoAtual}

/-- A success says that the reply has the cars as they arrive. -/
theorem answered_success {m : MessageT} (h : (answered b pred).1 = some m)
    (hok : opSuccess m opGetListByYear ctList = true) :
    m.nCars = (transferred b (listOrderByYear pred)).head.length ∧
      m.cars = (transferred b (listOrderByYear pred)).head.map Skeleton.dataToProtobuf := by
  cases harray : b.array with
  | false =>
    have hread : readMessage requestPtr.error = .ok rlistGetListAddRequest.error := rfl
    simp only [answered, invokeList, harray, Bool.not_false, if_true, hread] at h
    obtain ⟨-, hm⟩ := Option.ite_none_right_eq_some.mp h
    rw [← Option.some.inj hm] at hok
    exact absurd hok (by decide)
  | true =>
    simp only [answered, invokeList, harray, Bool.not_true, Bool.false_eq_true, if_false,
      listGetAll] at h
    cases hconverted : b.converted with
    | false =>
      simp only [dataArrayToProtobufArray, hconverted, Bool.false_eq_true, if_false] at h
      rw [readMessage_eq ⟨rfl, rfl⟩] at h
      obtain ⟨-, hm⟩ := Option.ite_none_right_eq_some.mp h
      rw [← Option.some.inj hm, transferred, if_neg (by simp [hconverted])]
      exact ⟨rfl, rfl⟩
    | true =>
      simp only [dataArrayToProtobufArray, hconverted, if_true] at h
      cases hread : readPointers (some ((listOrderByYear pred).head.mapIdx (dataToProtobuf b))) 0
        (listOrderByYear pred).head.length with
      | error e =>
        simp only [readMessage, hread] at h
        cases h
      | ok ds =>
        rw [readMessage_eq ⟨rfl, hread⟩] at h
        obtain ⟨-, hm⟩ := Option.ite_none_right_eq_some.mp h
        have hcars := dataOverWire_of_read hread
        rw [← Option.some.inj hm, transferred, if_pos hconverted]
        refine ⟨(List.length_mapIdx ..).symm, ?_⟩
        show (ds.take (listOrderByYear pred).head.length).map dataOverWire = _
        rw [List.map_take, hcars, List.take_of_length_le (by simp)]

theorem wellFormed_transferred {list : ListT} (h : WellFormed ano list) (b : Allocation) :
    WellFormed ano (transferred b list) := by
  rw [transferred]
  split
  · refine ⟨by rw [List.length_mapIdx]; exact h.size, fun car hcar => ?_⟩
    obtain ⟨i, hi, rfl⟩ := List.mem_mapIdx.mp hcar
    exact valid_arrivedCar (h.valid _ (List.getElem_mem hi)) b i
  · exact wellFormed_create ano

theorem models_transferred {list : ListT} (hconverted : b.converted = true)
    (hmodelos : ∀ i < list.head.length, b.modelo i = true) :
    (transferred b list).size = list.size ∧ models (transferred b list) = models list := by
  rw [transferred, if_pos hconverted]
  refine ⟨rfl, congrArg (fun l : List CString => (l : Multiset CString))
    (List.ext_getElem? fun i => ?_)⟩
  rw [List.getElem?_map, List.getElem?_map, List.getElem?_mapIdx]
  cases hcar : list.head[i]? with
  | none => rfl
  | some car =>
    obtain ⟨hi, -⟩ := List.getElem?_eq_some_iff.mp hcar
    simp [arrivedCar, hmodelos i hi]

/-- `init_list` leaves the predecessor's list as it was, or ordered. -/
theorem run_list (x : Exchange) (b : Allocation) (pred : ListT) :
    (x.run b pred).2 = pred ∨ (x.run b pred).2 = listOrderByYear pred := by
  cases x with
  | requestLost => exact .inl rfl
  | replyLost | through =>
    refine .inr ?_
    simp only [Exchange.run, answered, invokeList]
    split <;> rfl

theorem addCars_of_ne {ds : List Data} {i : Nat} {list l : ListT} {rc : Int} (hrc : rc ≠ -1)
    (h : addCars room t i ds list = (rc, l)) : ListTransfer.addCars t ds list = (rc, l) := by
  induction ds generalizing i list with
  | nil => exact h
  | cons d ds ih =>
    rw [addCars] at h
    rw [ListTransfer.addCars]
    cases hc : dataCreate t.create d.ano d.preco d.marca d.modelo d.combustivel with
    | none => rwa [hc] at h
    | some car =>
      rw [hc] at h
      dsimp only at h ⊢
      cases hroom : room i with
      | false =>
        rw [hroom] at h
        exact absurd (Prod.mk.inj h).1.symm hrc
      | true =>
        rw [hroom, if_pos rfl] at h
        generalize listAdd t.dup list car = added at h ⊢
        by_cases hres : added.1 = 0
        · rw [if_neg (not_not.mpr hres)] at h ⊢
          exact ih h
        · rwa [if_pos hres] at h ⊢

/-- A list that has been fetched is the predecessor's, ordered, with its cars as
they arrive. -/
theorem fetched {rc : Int} {l : ListT} {x : Exchange} (h : WellFormed ano pred) (hrc : rc ≠ -1)
    (hadd : rlistGetListAdd room (.same ano) (x.run b pred).1 listCreate = (rc, l)) :
    (x.run b pred).2 = listOrderByYear pred ∧ l = transferred b (listOrderByYear pred) := by
  have hnone : ∀ {res}, res = none →
      rlistGetListAdd room (.same ano) res listCreate ≠ (rc, l) := by
    rintro res rfl he
    exact hrc (Prod.mk.inj he).1.symm
  cases hrun : (x.run b pred).1 with
  | none => exact absurd hadd (hnone hrun)
  | some m =>
    have hanswer : (answered b pred).1 = some m ∧ (x.run b pred).2 = listOrderByYear pred := by
      cases x with
      | requestLost | replyLost => cases hrun
      | through =>
        refine ⟨hrun, ?_⟩
        simp only [Exchange.run, answered, invokeList]
        split <;> rfl
    refine ⟨hanswer.2, ?_⟩
    rw [hrun, rlistGetListAdd] at hadd
    cases hok : opSuccess m opGetListByYear ctList with
    | false =>
      rw [hok] at hadd
      exact absurd (Prod.mk.inj hadd).1.symm hrc
    | true =>
      obtain ⟨hn, hcars⟩ := answered_success hanswer.1 hok
      have hwf := wellFormed_transferred (wellFormed_order h) b
      generalize transferred b (listOrderByYear pred) = list at hn hcars hwf ⊢
      have hcopy : (⟨(list.head.length : Int), list.head⟩ : ListT) = list := by rw [← hwf.size]
      rw [hok, if_neg (by decide)] at hadd
      rw [← hcopy]
      by_cases hzero : m.nCars = 0
      · rw [if_pos hzero] at hadd
        rw [← (Prod.mk.inj hadd).2, List.length_eq_zero_iff.mp (hn.symm.trans hzero)]
        rfl
      · rw [if_neg hzero, hn, hcars, List.take_of_length_le (by simp)] at hadd
        have hall := addCars_valid hwf.valid listCreate
        rw [addCars_of_ne hrc hadd] at hall
        rw [(Prod.mk.inj hall).2]
        simp [listCreate]

end Fetched

theorem listOrderByYear_isStableSort (list : ListT) :
    Bubble.IsStableSort DataT.ano list.head (listOrderByYear list).head :=
  Bubble.sort_isStableSort DataT.ano list.head

/-- Nothing goes wrong with the cars: the predecessor has allocated the array for
those that it has, the strings of their models are copied, and no price is -0.0. -/
structure Intact (b : Allocation) (pred : ListT) : Prop where
  converted : pred.head ≠ [] → b.converted = true
  modelos : ∀ i car, (listOrderByYear pred).head[i]? = some car →
    b.modelo i = true ∨ car.modelo.bytes = []
  prices : ∀ car ∈ pred.head, SamePrice car.preco

theorem transferred_eq_iff (h : WellFormed ano pred) :
    transferred b (listOrderByYear pred) = listOrderByYear pred ↔ Intact b pred := by
  have hperm := listOrderByYear_perm pred
  have hsize := (wellFormed_order h).size
  have hcars : (listOrderByYear pred).head.mapIdx (arrivedCar b) = (listOrderByYear pred).head ↔
      ∀ i car, (listOrderByYear pred).head[i]? = some car →
        SamePrice car.preco ∧ (b.modelo i = true ∨ car.modelo.bytes = []) := by
    refine List.mapIdx_eq_iff.trans (forall_congr' fun i => ?_)
    cases hcar : (listOrderByYear pred).head[i]? with
    | none => exact iff_of_true rfl nofun
    | some car =>
      rw [Option.map_some, Option.some_inj, eq_comm, arrivedCar_eq]
      exact ⟨fun hc _ he => Option.some.inj he ▸ hc, fun hc => hc car rfl⟩
  constructor
  · intro heq
    have hhead := congrArg ListT.head heq
    rw [transferred] at hhead
    split at hhead
    next hconverted =>
      have hall := hcars.mp hhead
      refine ⟨fun _ => hconverted, fun i car hi => (hall i car hi).2, fun car hcar => ?_⟩
      obtain ⟨i, hi⟩ := List.mem_iff_getElem?.mp (hperm.mem_iff.mpr hcar)
      exact (hall i car hi).1
    next =>
      have hnil : pred.head = [] :=
        List.length_eq_zero_iff.mp (by rw [← hperm.length_eq, ← hhead]; rfl)
      refine ⟨fun hne => absurd hnil hne, fun i car hi => ?_, fun car hcar => ?_⟩
      · rw [← hhead] at hi
        cases hi
      · rw [hnil] at hcar
        cases hcar
  · intro hintact
    rw [transferred]
    split
    next =>
      have hhead := hcars.mpr fun i car hi =>
        ⟨hintact.prices car (hperm.mem_iff.mp (List.mem_of_getElem? hi)), hintact.modelos i car hi⟩
      rw [hhead]
    next hconverted =>
      have hnil : pred.head = [] := not_not.mp fun hne => hconverted (hintact.converted hne)
      have hhead : (listOrderByYear pred).head = [] :=
        List.length_eq_zero_iff.mp (by rw [hperm.length_eq, hnil]; rfl)
      rw [hhead] at hsize
      generalize listOrderByYear pred = list at hsize hhead
      cases list
      simp_all [listCreate]

def twoNodes : List CString :=
  [⟨[110, 111, 100, 101, 45, 49], by simp⟩, ⟨[110, 111, 100, 101, 45, 50], by simp⟩]

def reachable : Calls where
  zooGet _ := some .empty
  rlistConnect _ := true
  exchange := .through
  allocation := ⟨true, true, fun _ => true, fun _ => true⟩
  room _ := true
  rlistDisconnect := 0

/-- The array of `data_array_to_protobuf_array` cannot be allocated. -/
def noArray : Calls := { reachable with allocation := ⟨true, false, fun _ => true, fun _ => true⟩ }

def twoCars : ListT := ⟨2, [ClientStub.toyota 2020, ClientStub.toyota 2019]⟩

theorem reached_twoCars : Reached 2026 twoCars :=
  ⟨⟨2026, [turn (ClientStub.toyotaRequest 2020), turn (ClientStub.toyotaRequest 2019)], _, rfl,
    rfl, le_refl 2026⟩, by decide⟩

end ListServer.StateTransfer
