import ListServer.MemoryList
import ListServer.RequestSafety

namespace ListServer.ListSafety

open Lib.CTypes Lib.Pointer Lib.Loop Lib.Memory CarData Message MemoryList
open RequestSafety (MessagePtr Unpacked arrayOf)

/-- What the addition of a received car meets: the year that `data_create`
reads, whether `malloc` gives the car, and the call of `list_add`. -/
structure Arrival where
  t : Int
  created : Bool
  add : Addition
deriving DecidableEq

def dataCreate (v : Arrival) (d : Data) : Option DataT :=
  if v.created then CarData.dataCreate v.t d.ano d.preco d.marca d.modelo d.combustivel else none

/-- Where `data_to_protobuf` fails, a NULL stands in the array. -/
def convert (b : Building) (records : Heap DataT) :
    Nat → List Nat → Except Fault (List (Option Data))
  | _, [] => .ok []
  | i, p :: ps => do
    let car ← load records (some p)
    let rest ← convert b records (i + 1) ps
    return (if b.element i then some (Skeleton.dataToProtobuf car) else none) :: rest

def dataArrayToProtobufArray (b : Building) (records : Heap DataT)
    (cars : List (Option Nat)) : Except Fault (Option (List (Option Data)) × Nat) := do
  let cars ← untilNull cars
  if !b.converted then return (none, 0)
  let array ← convert b records 0 cars
  return (some array, cars.length)

def invokeSize (msg : MessagePtr) (mem : Mem) : Int × MessagePtr × Mem :=
  let msg := { msg with result := listSize mem }
  if msg.result = -1 then (-1, { msg with opcode := opError, cType := ctNone }, mem)
  else (0, { msg with opcode := msg.opcode + 1, cType := ctResult }, mem)

def invokeAdd (fuel : Nat) (v : Arrival) (msg : MessagePtr) (mem : Mem) :
    Prog (Int × MessagePtr × Mem) :=
  match msg.data with
  | none => return (-1, msg.error, mem)
  | some d =>
    match dataCreate v d with
    | none => return (-1, msg.error, mem)
    | some car => do
      let (res, mem) ← listAdd fuel v.add mem (some car)
      if res = 0 then
        return (0, { msg with opcode := msg.opcode + 1, cType := ctNone, result := 0 }, mem)
      else return (0, msg.error, mem)

def invokeGet (fuel : Nat) (b : Building) (msg : MessagePtr) (mem : Mem) :
    Prog (Int × MessagePtr × Mem) :=
  if msg.cType = ctMarca then do
    match ← listGetByMarca fuel mem msg.result with
    | none => return (0, msg.error, mem)
    | some d =>
      let car ← access (load mem.records (some d))
      if b.converted then
        return (0, { msg with
          data := some (Skeleton.dataToProtobuf car), opcode := msg.opcode + 1,
          cType := ctData }, mem)
      else return (0, { msg with data := none }.error, mem)
  else return (0, msg, mem)

/-- The reply with the cars of an array that `list.c` has built, or with an
error if it could not. -/
def sendCars (b : Building) (msg : MessagePtr) (mem : Mem) (cars : Option (List (Option Nat))) :
    Prog (Int × MessagePtr × Mem) :=
  match cars with
  | none => return (0, msg.error, mem)
  | some cars => do
    let (cars, n) ← access (dataArrayToProtobufArray b mem.records cars)
    return (0, { msg with
      cars := cars, nCars := n, opcode := msg.opcode + 1, cType := ctList }, mem)

def invokeGetListByYear (fuel : Nat) (b : Building) (msg : MessagePtr) (mem : Mem) :
    Prog (Int × MessagePtr × Mem) :=
  if msg.result ≠ -1 then do
    let cars ← listGetByYear fuel b mem msg.result
    sendCars b msg mem cars
  else do
    let (_, mem) ← listOrderByYear fuel mem
    let cars ← listGetAll fuel b mem
    sendCars b msg mem cars

/-- The count is set before the array is looked at. -/
def invokeGetModels (fuel : Nat) (b : Building) (msg : MessagePtr) (mem : Mem) :
    Prog (Int × MessagePtr × Mem) := do
  let models ← listGetModelList fuel b mem
  let msg := { msg with models := models, nModels := toSizeT (listSize mem) }
  if models = none then return (0, msg.error, mem)
  else return (0, { msg with opcode := msg.opcode + 1, cType := ctModel }, mem)

def invokeDel (fuel : Nat) (msg : MessagePtr) (mem : Mem) : Prog (Int × MessagePtr × Mem) :=
  if msg.nModels ≠ 1 then return (0, msg.error, mem)
  else do
    let modelo ← access (index msg.models 0)
    let (res, mem) ← listRemoveByModel fuel mem modelo
    return (0, { msg with opcode := msg.opcode + 1, cType := ctResult, result := res }, mem)

def invoke (fuel : Nat) (v : Arrival) (b : Building) (msg : MessagePtr) (mem : Mem) :
    Prog (Int × MessagePtr × Mem) :=
  if msg.opcode = opSize then return invokeSize msg mem
  else if msg.opcode = opAdd then invokeAdd fuel v msg mem
  else if msg.opcode = opGet then invokeGet fuel b msg mem
  else if msg.opcode = opGetListByYear then invokeGetListByYear fuel b msg mem
  else if msg.opcode = opGetModels then invokeGetModels fuel b msg mem
  else if msg.opcode = opDel then invokeDel fuel msg mem
  else return (0, msg.error, mem)

/-- The loop of `rlist_get_list_add` over the cars of the reply, of which the
first here has the index `i`. -/
def addCars (fuel : Nat) (vs : Nat → Arrival) : Nat → List Data → Mem → Prog (Int × Mem)
  | _, [], mem => return (0, mem)
  | i, d :: ds, mem =>
    match dataCreate (vs i) d with
    | none => return (-1, mem)
    | some car => do
      let (res, mem) ← listAdd fuel (vs i).add mem (some car)
      if res ≠ 0 then return (-1, mem) else addCars fuel vs (i + 1) ds mem

def opSuccess (msg : MessagePtr) (opcode ctype : Int) : Bool :=
  decide (msg.opcode = opcode + 1) && decide (msg.opcode ≠ opBad) && decide (msg.cType = ctype)

/-- `res` is what `network_send_receive` gave for the request. -/
def rlistGetListAdd (fuel : Nat) (vs : Nat → Arrival) (res : Option MessagePtr) (mem : Mem) :
    Prog (Int × Mem) :=
  match res with
  | none => return (-1, mem)
  | some res =>
    if !opSuccess res opGetListByYear ctList then return (-1, mem)
    else if res.nCars = 0 then return (0, mem)
    else do
      let cars ← access (readPointers res.cars 0 res.nCars)
      addCars fuel vs 0 cars mem

/-- The calls that may change the list. A NULL argument is `none`. -/
inductive Call
  | add (car : Option DataT)
  | removeByModel (modelo : Option CString)
  | orderByYear
  | getListAdd (res : Option Unpacked)
  | invoke (msg : Option Unpacked)

structure Event where
  call : Call
  arrivals : Nat → Arrival
  building : Building

/-- The list, and the message of the last call if that was an `invoke`. -/
structure State where
  mem : Mem
  reply : Option MessagePtr

def State.start : State := ⟨listCreate, none⟩

def exec (fuel : Nat) (s : State) (e : Event) : Prog State :=
  match e.call with
  | .add car => do
    let (_, mem) ← listAdd fuel (e.arrivals 0).add s.mem car
    return ⟨mem, none⟩
  | .removeByModel modelo => do
    let (_, mem) ← listRemoveByModel fuel s.mem modelo
    return ⟨mem, none⟩
  | .orderByYear => do
    let (_, mem) ← listOrderByYear fuel s.mem
    return ⟨mem, none⟩
  | .getListAdd res => do
    let (_, mem) ← rlistGetListAdd fuel e.arrivals (res.map Unpacked.inMemory) s.mem
    return ⟨mem, none⟩
  | .invoke none => return ⟨s.mem, none⟩
  | .invoke (some u) => do
    let (_, msg, mem) ← invoke fuel (e.arrivals 0) e.building u.inMemory s.mem
    return ⟨mem, some msg⟩

def elements {α : Type} (array : Option (List (Option α))) : Nat :=
  ((array.getD []).takeWhile Option.isSome).length

/-- The counts of a message are the numbers of elements of its arrays. -/
structure Exact (msg : MessagePtr) : Prop where
  models : msg.nModels = elements msg.models
  cars : msg.nCars = elements msg.cars

/-- The car gets into the list if the counter allows it. -/
def Arrival.admits (v : Arrival) (d : Data) : Bool :=
  (dataCreate v d).any (fun car => decide (Valid v.add.t car)) &&
    v.add.node.isSome && v.add.data.isSome

def admitted (vs : Nat → Arrival) : Nat → List Data → Nat
  | _, [] => 0
  | i, d :: ds => if (vs i).admits d then admitted vs (i + 1) ds + 1 else 0

def additions (e : Event) : Nat :=
  match e.call with
  | .add (some car) =>
    let w := (e.arrivals 0).add
    if Valid w.t car ∧ w.node.isSome = true ∧ w.data.isSome = true then 1 else 0
  | .getListAdd (some u) =>
    if opSuccess u.inMemory opGetListByYear ctList then admitted e.arrivals 0 u.msg.cars else 0
  | .invoke (some u) =>
    if u.msg.opcode = opAdd then admitted e.arrivals 0 u.msg.data.toList else 0
  | _ => 0

/-- The counter stays an `int`, and `malloc` does not fail in the building of
the models of a list that has some, nor for an element of an array of cars. -/
structure Clear (s : State) (e : Event) : Prop where
  room : s.mem.size + additions e ≤ intMax
  models : ∀ u, e.call = .invoke (some u) → u.msg.opcode = opGetModels → 0 < s.mem.size →
    e.building.array = true ∧ ∀ i : Nat, i < s.mem.size → e.building.element i = true
  cars : ∀ u, e.call = .invoke (some u) → u.msg.opcode = opGetListByYear →
    e.building.array = true → e.building.converted = true →
      ∀ i : Nat, i < s.mem.size → e.building.element i = true

/-- The states that calls lead to which all meet the condition. -/
inductive Reached : State → Prop
  | start : Reached .start
  | call {s t : State} {e : Event} (hs : Reached s) (hc : Clear s e)
      (ht : Gives (fun n => (exec n s e).run) (.ok t)) : Reached t

/-- An array, if there is one, has a NULL behind its elements and none among them. -/
def Terminated {α : Type} (array : Option (List (Option α))) : Prop :=
  ∀ a, array = some a → ∃ xs : List α, a = xs.map some ++ [none]

/-- What holds between two calls. -/
structure Safe (s : State) : Prop where
  chain : ∃ cells, Represents s.mem cells ∧ (cells.map Cell.node).Nodup
  reply : ∀ m, s.reply = some m → Exact m
  all : ∀ b, ∃ array, Gives (fun n => (listGetAll n b s.mem).run) (.ok array) ∧ Terminated array
  byYear : ∀ b ano, ∃ array, Gives (fun n => (listGetByYear n b s.mem ano).run) (.ok array) ∧
    Terminated array
  modelList : ∀ b, ∃ array, Gives (fun n => (listGetModelList n b s.mem).run) (.ok array) ∧
    Terminated array
  calls : ∀ e, Clear s e → ∃ t, Gives (fun n => (exec n s e).run) (.ok t)

/-- The memory holds a list, and its counter is an `int`. -/
def Kept (mem : Mem) : Prop := (∃ cells, Represents mem cells) ∧ mem.size ≤ intMax

section Elements

variable {α : Type}

theorem elements_map (l : List α) : elements (some (l.map some)) = l.length := by
  rw [elements, Option.getD_some, List.takeWhile_eq_self_iff.mpr, List.length_map]
  intro x hx
  obtain ⟨y, -, rfl⟩ := List.mem_map.mp hx
  rfl

theorem elements_terminated (l : List α) : elements (some (l.map some ++ [none])) = l.length := by
  rw [elements, Option.getD_some, List.takeWhile_append_of_pos]
  · simp
  · intro x hx
    obtain ⟨y, -, rfl⟩ := List.mem_map.mp hx
    rfl

theorem elements_arrayOf (l : List α) : elements (arrayOf l) = l.length := by
  cases l with
  | nil => rfl
  | cons x l => exact elements_map (x :: l)

theorem exact_inMemory (u : Unpacked) : Exact u.inMemory :=
  ⟨u.models.trans (elements_arrayOf _).symm, u.cars.trans (elements_arrayOf _).symm⟩

end Elements

section Additions

variable {mem : Mem}

theorem admits_of_placed {v : Arrival} {d : Data} {car : DataT} {c : Cell}
    (hcreate : dataCreate v d = some car) (hp : placed v.add mem (some car) = some c) :
    v.admits d = true := by
  obtain ⟨hcar, hv, hnode, hdata⟩ := placed_eq_some.mp hp
  obtain rfl := Option.some.inj hcar
  have hn := (Option.filter_eq_some_iff.mp hnode).1
  have hd := (Option.filter_eq_some_iff.mp hdata).1
  simp [Arrival.admits, hcreate, hv, hn, hd]

/-- An addition changes nothing, or it makes a node for which the counter has
to have room. -/
theorem kept_add (h : Kept mem) (w : Addition) (car : Option DataT)
    (hroom : ∀ c, placed w mem car = some c → mem.size + 1 ≤ intMax) :
    Gives (fun n => (listAdd n w mem car).run) (.ok (-1, mem)) ∨ ∃ c mem',
      placed w mem car = some c ∧ Gives (fun n => (listAdd n w mem car).run) (.ok (0, mem')) ∧
        Kept mem' ∧ mem'.size = mem.size + 1 := by
  obtain ⟨⟨cells, hrep⟩, hmax⟩ := h
  cases hp : placed w mem car with
  | none => exact .inl (gives_listAdd_none hp)
  | some c =>
    have hle := hroom c hp
    obtain ⟨mem', hgives, hrep', hsize⟩ := gives_listAdd hrep hp (by omega)
    exact .inr ⟨c, mem', rfl, hgives, ⟨⟨_, hrep'⟩, hsize.trans_le hle⟩, hsize⟩

theorem kept_addCars {vs : Nat → Arrival} {i : Nat} {ds : List Data} (h : Kept mem)
    (hroom : mem.size + admitted vs i ds ≤ intMax) :
    ∃ r, Gives (fun n => (addCars n vs i ds mem).run) (.ok r) ∧ Kept r.2 := by
  induction ds generalizing i mem with
  | nil => exact ⟨(0, mem), gives_some _, h⟩
  | cons d ds ih =>
    cases hcreate : dataCreate (vs i) d with
    | none =>
      refine ⟨(-1, mem), ?_, h⟩
      simp only [addCars, hcreate]
      exact gives_some _
    | some car =>
      have hstep : ∀ c, placed (vs i).add mem (some car) = some c →
          mem.size + 1 + admitted vs (i + 1) ds ≤ intMax := fun c hp => by
        rw [admitted, if_pos (admits_of_placed hcreate hp)] at hroom
        omega
      simp only [addCars, hcreate]
      obtain hadd | ⟨c, mem', hp, hadd, hkept, hsize⟩ := kept_add h (vs i).add (some car)
        fun c hp => by
          have hle := hstep c hp
          omega
      · exact ⟨(-1, mem), gives_bind hadd (gives_some _), h⟩
      · obtain ⟨r, hrest, hkept'⟩ := ih hkept (i := i + 1) (by rw [hsize]; exact hstep c hp)
        exact ⟨r, gives_bind hadd hrest, hkept'⟩

theorem kept_getListAdd (vs : Nat → Arrival) (h : Kept mem) (res : Option Unpacked)
    (hroom : ∀ u, res = some u → opSuccess u.inMemory opGetListByYear ctList = true →
      mem.size + admitted vs 0 u.msg.cars ≤ intMax) :
    ∃ r, Gives (fun n => (rlistGetListAdd n vs (res.map Unpacked.inMemory) mem).run) (.ok r) ∧
      Kept r.2 := by
  cases res with
  | none => exact ⟨(-1, mem), gives_some _, h⟩
  | some u =>
    have hread := (RequestSafety.holds_inMemory u).cars
    have hroom := hroom u rfl
    simp only [Option.map_some, rlistGetListAdd]
    cases hok : opSuccess u.inMemory opGetListByYear ctList with
    | false => exact ⟨(-1, mem), gives_some _, h⟩
    | true =>
      simp only [Bool.not_true, Bool.false_eq_true, if_false]
      by_cases hn : u.inMemory.nCars = 0
      · simp only [if_pos hn]
        exact ⟨(0, mem), gives_some _, h⟩
      · obtain ⟨r, hgives, hkept⟩ := kept_addCars h (hroom hok)
        simp only [if_neg hn]
        exact ⟨r, gives_bind (gives_access hread) hgives, hkept⟩

end Additions

theorem kept_remove {mem : Mem} (h : Kept mem) (modelo : Option CString) :
    ∃ r, Gives (fun n => (listRemoveByModel n mem modelo).run) (.ok r) ∧ Kept r.2 := by
  cases modelo with
  | none => exact ⟨(-1, mem), gives_some _, h⟩
  | some modelo =>
    obtain ⟨⟨cells, hrep⟩, hmax⟩ := h
    obtain ⟨r, hgives, hr⟩ := gives_remove hrep hmax modelo
    refine ⟨r, hgives, ?_⟩
    split at hr
    · obtain ⟨-, hrep', hsize⟩ := hr
      exact ⟨⟨_, hrep'⟩, by omega⟩
    · rw [hr]
      exact ⟨⟨cells, hrep⟩, hmax⟩

theorem kept_order {mem : Mem} (h : Kept mem) :
    ∃ mem', Gives (fun n => (listOrderByYear n mem).run) (.ok (0, mem')) ∧ Kept mem' ∧
      mem'.size = mem.size := by
  obtain ⟨⟨cells, hrep⟩, hmax⟩ := h
  obtain ⟨mem', cells', -, hgives, hfill, -⟩ := gives_order hrep
  exact ⟨mem', hgives, ⟨⟨cells', hfill.represents⟩, hfill.size ▸ hmax⟩, hfill.size⟩

section Invoke

variable {mem : Mem} {u : Unpacked}

/-- What a branch of `invoke` leaves. -/
def Answered (f : Nat → Prog (Int × MessagePtr × Mem)) : Prop :=
  ∃ rc msg mem', Gives (fun n => (f n).run) (.ok (rc, msg, mem')) ∧ Kept mem' ∧ Exact msg

theorem answered_same {f : Nat → Prog (Int × MessagePtr × Mem)} {rc : Int} {msg : MessagePtr}
    (h : Kept mem) (hgives : Gives (fun n => (f n).run) (.ok (rc, msg, mem)))
    (hnm : msg.nModels = u.inMemory.nModels) (hm : msg.models = u.inMemory.models)
    (hnc : msg.nCars = u.inMemory.nCars) (hc : msg.cars = u.inMemory.cars) : Answered f := by
  have hexact := exact_inMemory u
  refine ⟨rc, msg, mem, hgives, h, ?_, ?_⟩
  · rw [hnm, hm]
    exact hexact.models
  · rw [hnc, hc]
    exact hexact.cars

theorem answered_error (h : Kept mem) (rc : Int) :
    Answered fun _ => pure (rc, u.inMemory.error, mem) :=
  answered_same h (gives_some _) rfl rfl rfl rfl

theorem answered_invokeSize (h : Kept mem) : Answered fun _ => pure (invokeSize u.inMemory mem) := by
  by_cases hs : listSize mem = -1
  · have heq : invokeSize u.inMemory mem = (-1, { u.inMemory with
        result := listSize mem, opcode := opError, cType := ctNone }, mem) := if_pos hs
    rw [heq]
    exact answered_same h (gives_some _) rfl rfl rfl rfl
  · have heq : invokeSize u.inMemory mem = (0, { u.inMemory with
        result := listSize mem, opcode := u.inMemory.opcode + 1, cType := ctResult }, mem) :=
      if_neg hs
    rw [heq]
    exact answered_same h (gives_some _) rfl rfl rfl rfl

theorem answered_add (h : Kept mem) {vs : Nat → Arrival}
    (hroom : mem.size + admitted vs 0 u.msg.data.toList ≤ intMax) :
    Answered fun n => invokeAdd n (vs 0) u.inMemory mem := by
  simp only [invokeAdd, RequestSafety.inMemory_data]
  cases hd : u.msg.data with
  | none => exact answered_error h (-1)
  | some d =>
    rw [hd] at hroom
    dsimp only
    cases hcreate : dataCreate (vs 0) d with
    | none => exact answered_error h (-1)
    | some car =>
      obtain hadd | ⟨c, mem', -, hadd, hkept, -⟩ := kept_add h (vs 0).add (some car)
        fun c hp => by
          rw [Option.toList_some, admitted, if_pos (admits_of_placed hcreate hp)] at hroom
          omega
      · exact answered_same h (gives_bind hadd (gives_some _)) rfl rfl rfl rfl
      · exact answered_same hkept (gives_bind hadd (gives_some _)) rfl rfl rfl rfl

theorem answered_get (h : Kept mem) (b : Building) :
    Answered fun n => invokeGet n b u.inMemory mem := by
  obtain ⟨⟨cells, hrep⟩, hmax⟩ := h
  simp only [invokeGet]
  by_cases hm : u.inMemory.cType = ctMarca
  · simp only [if_pos hm]
    have hfound := gives_listGetByMarca hrep u.inMemory.result
    cases hfind : cells.find? fun c => decide (c.car.marca = u.inMemory.result) with
    | none =>
      rw [hfind] at hfound
      exact answered_same ⟨⟨cells, hrep⟩, hmax⟩ (gives_bind hfound (gives_some _)) rfl rfl rfl rfl
    | some c =>
      rw [hfind] at hfound
      have hrec := load_some (hrep.records c (List.mem_of_find?_eq_some hfind))
      cases hb : b.converted with
      | false =>
        exact answered_same ⟨⟨cells, hrep⟩, hmax⟩
          (gives_bind hfound (gives_bind (gives_access hrec) (gives_some _))) rfl rfl rfl rfl
      | true =>
        exact answered_same ⟨⟨cells, hrep⟩, hmax⟩
          (gives_bind hfound (gives_bind (gives_access hrec) (gives_some _))) rfl rfl rfl rfl
  · simp only [if_neg hm]
    exact answered_same ⟨⟨cells, hrep⟩, hmax⟩ (gives_some _) rfl rfl rfl rfl

theorem convert_eq {b : Building} {records : Heap DataT} {cells : List Cell} {i : Nat}
    (hr : ∀ c ∈ cells, records c.data = some c.car)
    (hb : ∀ j < i + cells.length, b.element j = true) :
    convert b records i (cells.map Cell.data) =
      .ok ((cells.map fun c => Skeleton.dataToProtobuf c.car).map some) := by
  induction cells generalizing i with
  | nil => rfl
  | cons c cells ih =>
    rw [List.length_cons] at hb
    have hrest := ih (i := i + 1) (fun d hd => hr d (List.mem_cons_of_mem c hd))
      fun j hj => hb j (by omega)
    simp only [List.map_cons, convert, load_some (hr c List.mem_cons_self), hrest,
      hb i (by omega), bind, Except.bind, pure, Except.pure, if_true]

/-- Of an array from `list.c` a reply is made whose count is right, unless an
element could not be converted. -/
theorem answered_sendCars {cells : List Cell} {b : Building} (h : Kept mem)
    (hr : ∀ c ∈ cells, mem.records c.data = some c.car)
    (hb : b.converted = true → ∀ j < cells.length, b.element j = true)
    {f : Nat → Prog (Option (List (Option Nat)))}
    (hf : Gives (fun n => (f n).run) (.ok (some ((cells.map fun c => some c.data) ++ [none])))) :
    Answered fun n => f n >>= sendCars b u.inMemory mem := by
  have hnull : untilNull ((cells.map fun c => some c.data) ++ [none]) =
      .ok (cells.map Cell.data) := by
    have h := untilNull_map_some (cells.map Cell.data) []
    rwa [List.map_map] at h
  cases hconv : b.converted with
  | false =>
    have harray : dataArrayToProtobufArray b mem.records
        ((cells.map fun c => some c.data) ++ [none]) = .ok (none, 0) := by
      simp only [dataArrayToProtobufArray, hnull, hconv, bind, Except.bind, pure, Except.pure,
        Bool.not_false, if_true]
    exact ⟨_, _, mem, gives_bind hf (gives_bind (gives_access harray) (gives_some _)), h,
      (exact_inMemory u).models, rfl⟩
  | true =>
    have hconvert := convert_eq (i := 0) hr fun j hj => hb hconv j (by omega)
    have harray : dataArrayToProtobufArray b mem.records
        ((cells.map fun c => some c.data) ++ [none]) =
          .ok (some ((cells.map fun c => Skeleton.dataToProtobuf c.car).map some),
            (cells.map Cell.data).length) := by
      simp only [dataArrayToProtobufArray, hnull, hconv, hconvert, bind, Except.bind, pure,
        Except.pure, Bool.not_true, Bool.false_eq_true, if_false]
    refine ⟨_, _, mem, gives_bind hf (gives_bind (gives_access harray) (gives_some _)), h,
      (exact_inMemory u).models, ?_⟩
    dsimp only
    rw [elements_map, List.length_map, List.length_map]

theorem answered_getListByYear (h : Kept mem) {b : Building}
    (hb : b.array = true → b.converted = true → ∀ i : Nat, i < mem.size → b.element i = true) :
    Answered fun n => invokeGetListByYear n b u.inMemory mem := by
  obtain ⟨⟨cells, hrep⟩, hmax⟩ := h
  simp only [invokeGetListByYear]
  by_cases hyear : u.inMemory.result ≠ -1
  · simp only [if_pos hyear]
    have hcars := gives_listGetByYear hrep hmax b u.inMemory.result
    cases harray : b.array with
    | false =>
      rw [harray] at hcars
      exact answered_same ⟨⟨cells, hrep⟩, hmax⟩ (gives_bind hcars (gives_some _)) rfl rfl rfl rfl
    | true =>
      rw [harray] at hcars
      refine answered_sendCars ⟨⟨cells, hrep⟩, hmax⟩
        (fun c hc => hrep.records c (List.mem_of_mem_filter hc)) (fun hconv j hj => ?_) hcars
      have hle : (ofYear u.inMemory.result cells).length ≤ cells.length :=
        List.length_filter_le ..
      have hlt : j < cells.length := Nat.lt_of_lt_of_le hj hle
      exact hb harray hconv j (by rw [hrep.size]; omega)
  · simp only [if_neg hyear]
    obtain ⟨mem', cells', -, horder, hfill, -⟩ := gives_order hrep
    have hmax' : mem'.size ≤ intMax := hfill.size ▸ hmax
    have hcars := gives_listGetAll hfill.represents hmax' b
    cases harray : b.array with
    | false =>
      rw [harray] at hcars
      exact answered_same ⟨⟨cells', hfill.represents⟩, hmax'⟩
        (gives_bind horder (gives_bind hcars (gives_some _))) rfl rfl rfl rfl
    | true =>
      rw [harray] at hcars
      obtain ⟨rc, msg, mem'', hsend, hkept, hexact⟩ := answered_sendCars (u := u)
        ⟨⟨cells', hfill.represents⟩, hmax'⟩ hfill.represents.records (fun hconv j hj => by
          refine hb harray hconv j ?_
          rw [← hfill.size, hfill.represents.size]
          omega) hcars
      exact ⟨rc, msg, mem'', gives_bind horder hsend, hkept, hexact⟩

theorem toSizeT_size {cells : List Cell} (hrep : Represents mem cells) (hmax : mem.size ≤ intMax) :
    toSizeT (listSize mem) = cells.length := by
  simp only [intMax] at hmax
  have hsize := hrep.size
  simp only [toSizeT, listSize]
  omega

theorem answered_getModels (h : Kept mem) {b : Building}
    (hb : 0 < mem.size → b.array = true ∧ ∀ i : Nat, i < mem.size → b.element i = true) :
    Answered fun n => invokeGetModels n b u.inMemory mem := by
  obtain ⟨⟨cells, hrep⟩, hmax⟩ := h
  obtain ⟨models, hgives, harray, hall⟩ := gives_listGetModelList hrep hmax b
  have hsize := toSizeT_size hrep hmax
  have hcars := (exact_inMemory u).cars
  cases models with
  | none =>
    have hnil : cells.length = 0 := by
      by_contra hne
      obtain ⟨ha, he⟩ := hb (by rw [hrep.size]; omega)
      exact hall ha (fun i hi => he i (by rw [hrep.size]; omega)) rfl
    refine ⟨_, _, mem, gives_bind hgives (gives_some _), ⟨⟨cells, hrep⟩, hmax⟩, ?_, hcars⟩
    exact hsize.trans hnil
  | some array =>
    refine ⟨_, _, mem, gives_bind hgives (gives_some _), ⟨⟨cells, hrep⟩, hmax⟩, ?_, hcars⟩
    have hterm := elements_terminated (cells.map fun c => c.car.modelo)
    rw [List.map_map, List.length_map] at hterm
    dsimp only
    rw [harray array rfl, hsize]
    exact hterm.symm

theorem answered_del (h : Kept mem) : Answered fun n => invokeDel n u.inMemory mem := by
  simp only [invokeDel]
  by_cases hone : u.inMemory.nModels = 1
  · obtain ⟨modelo, hmodels⟩ := List.length_eq_one_iff.mp (u.models.symm.trans hone)
    obtain ⟨⟨res, mem'⟩, hgives, hkept⟩ := kept_remove h (some modelo)
    simp only [if_neg (not_not.mpr hone)]
    exact answered_same hkept (gives_bind (gives_access (RequestSafety.index_models hmodels))
      (gives_bind hgives (gives_some _))) rfl rfl rfl rfl
  · simp only [if_pos hone]
    exact answered_error h 0

end Invoke

section Calls

variable {s t : State} {e : Event}

theorem answered_invoke (h : Kept s.mem) {u : Unpacked} (he : e.call = .invoke (some u))
    (hc : Clear s e) :
    Answered fun n => invoke n (e.arrivals 0) e.building u.inMemory s.mem := by
  simp only [invoke]
  by_cases hsize : u.inMemory.opcode = opSize
  · simp only [if_pos hsize]
    exact answered_invokeSize h
  simp only [if_neg hsize]
  by_cases hadd : u.inMemory.opcode = opAdd
  · have hroom := hc.room
    have hop : u.msg.opcode = opAdd := hadd
    simp only [additions, he, if_pos hop] at hroom
    simp only [if_pos hadd]
    exact answered_add h hroom
  simp only [if_neg hadd]
  by_cases hget : u.inMemory.opcode = opGet
  · simp only [if_pos hget]
    exact answered_get h e.building
  simp only [if_neg hget]
  by_cases hyear : u.inMemory.opcode = opGetListByYear
  · simp only [if_pos hyear]
    exact answered_getListByYear h (hc.cars u he hyear)
  simp only [if_neg hyear]
  by_cases hmodels : u.inMemory.opcode = opGetModels
  · simp only [if_pos hmodels]
    exact answered_getModels h (hc.models u he hmodels)
  simp only [if_neg hmodels]
  by_cases hdel : u.inMemory.opcode = opDel
  · simp only [if_pos hdel]
    exact answered_del h
  simp only [if_neg hdel]
  exact answered_error h 0

theorem no_reply (mem : Mem) : ∀ m, (State.mk mem none).reply = some m → Exact m :=
  fun m hm => absurd hm (Option.some_ne_none m).symm

/-- A call that meets the condition ends without a fault and keeps the list. -/
theorem gives_exec (h : Kept s.mem) (hc : Clear s e) : ∃ t,
    Gives (fun n => (exec n s e).run) (.ok t) ∧ Kept t.mem ∧ ∀ m, t.reply = some m → Exact m := by
  have hroom := hc.room
  simp only [exec]
  cases he : e.call with
  | add car =>
    obtain hadd | ⟨c, mem', -, hadd, hkept, -⟩ := kept_add h (e.arrivals 0).add car fun c hp => by
      obtain ⟨rfl, hv, hnode, hdata⟩ := placed_eq_some.mp hp
      have hn := (Option.filter_eq_some_iff.mp hnode).1
      have hd := (Option.filter_eq_some_iff.mp hdata).1
      simpa [additions, he, hv, hn, hd] using hroom
    · exact ⟨⟨s.mem, none⟩, gives_bind hadd (gives_some _), h, no_reply _⟩
    · exact ⟨⟨mem', none⟩, gives_bind hadd (gives_some _), hkept, no_reply _⟩
  | removeByModel modelo =>
    obtain ⟨r, hgives, hkept⟩ := kept_remove h modelo
    exact ⟨⟨r.2, none⟩, gives_bind hgives (gives_some _), hkept, no_reply _⟩
  | orderByYear =>
    obtain ⟨mem', hgives, hkept, -⟩ := kept_order h
    exact ⟨⟨mem', none⟩, gives_bind hgives (gives_some _), hkept, no_reply _⟩
  | getListAdd res =>
    obtain ⟨r, hgives, hkept⟩ := kept_getListAdd e.arrivals h res fun u hu hok => by
      rw [hu] at he
      simpa only [additions, he, hok, if_true] using hroom
    exact ⟨⟨r.2, none⟩, gives_bind hgives (gives_some _), hkept, no_reply _⟩
  | invoke msg =>
    cases msg with
    | none => exact ⟨⟨s.mem, none⟩, gives_some _, h, no_reply _⟩
    | some u =>
      obtain ⟨rc, msg, mem', hgives, hkept, hexact⟩ := answered_invoke h he hc
      refine ⟨⟨mem', some msg⟩, gives_bind hgives (gives_some _), hkept, fun m hm => ?_⟩
      exact Option.some.inj hm ▸ hexact

theorem kept_reached (h : Reached s) : Kept s.mem ∧ ∀ m, s.reply = some m → Exact m := by
  induction h with
  | start => exact ⟨⟨⟨[], represents_create⟩, by decide⟩, no_reply _⟩
  | call hs hc ht ih =>
    obtain ⟨t, hgives, hkept⟩ := gives_exec ih.1 hc
    obtain rfl := Except.ok.inj (ht.unique hgives)
    exact hkept

theorem terminated_ite {α : Type} (b : Bool) (xs : List α) :
    Terminated (if b then some (xs.map some ++ [none]) else none) := by
  intro a ha
  exact ⟨xs, (Option.some.inj (Option.ite_none_right_eq_some.mp ha).2).symm⟩

/-- In every state that calls lead to which all meet the condition, the chain is
sound and the arrays built from it are. -/
theorem safe_of_reached (h : Reached s) : Safe s := by
  obtain ⟨⟨⟨cells, hrep⟩, hmax⟩, hreply⟩ := kept_reached h
  have hdata : ∀ l : List Cell, (l.map fun c => some c.data) = (l.map Cell.data).map some :=
    fun l => (List.map_map ..).symm
  refine ⟨⟨cells, hrep, hrep.nodup⟩, hreply, fun b => ?_, fun b ano => ?_, fun b => ?_,
    fun e hc => ?_⟩
  · have hgives := gives_listGetAll hrep hmax b
    rw [hdata] at hgives
    exact ⟨_, hgives, terminated_ite b.array _⟩
  · have hgives := gives_listGetByYear hrep hmax b ano
    rw [hdata] at hgives
    exact ⟨_, hgives, terminated_ite b.array _⟩
  · obtain ⟨models, hgives, harray, -⟩ := gives_listGetModelList hrep hmax b
    refine ⟨models, hgives, fun a ha => ⟨cells.map fun c => c.car.modelo, ?_⟩⟩
    rw [harray a ha, List.map_map]
    rfl
  · obtain ⟨t, hgives, -⟩ := gives_exec ⟨⟨cells, hrep⟩, hmax⟩ hc
    exact ⟨t, hgives⟩

end Calls

/-- An addition for which `malloc` finds the given places. -/
def addCar (ano : Int) (place : Nat) : Event :=
  ⟨.add (some (car ano)), fun _ => ⟨2026, true, ⟨2026, some place, some place⟩⟩,
    ⟨true, true, fun _ => true⟩⟩

/-- A request without arguments, for which `malloc` finds room, or only for the
arrays of `list.c`. -/
def read (opcode result : Int) (converted : Bool) : Event :=
  ⟨.invoke (some ⟨{ MessageT.init with opcode := opcode, result := result }, rfl, rfl,
    by simp [MessageT.init]⟩), fun _ => ⟨2026, true, ⟨2026, none, none⟩⟩,
    ⟨true, converted, fun _ => true⟩⟩

/-- The state after a call whose loops end within four rounds. -/
def result (s : State) (e : Event) : State :=
  match (exec 4 s e).run with
  | some (.ok t) => t
  | _ => s

theorem gives_of_rounds {s t : State} {e : Event} (h : ∀ n, (exec (n + 4) s e).run = some (.ok t)) :
    Gives (fun n => (exec n s e).run) (.ok t) := by
  refine ⟨4, fun m hm => ?_⟩
  obtain ⟨n, rfl⟩ := Nat.exists_eq_add_of_le' hm
  exact h n

theorem clear_of_element {s : State} {e : Event} (hroom : s.mem.size + additions e ≤ intMax)
    (harray : e.building.array = true) (helement : ∀ i, e.building.element i = true) : Clear s e where
  room := hroom
  models _ _ _ _ := ⟨harray, fun i _ => helement i⟩
  cars _ _ _ _ _ i _ := helement i

def oneCar : State := result .start (addCar 2020 0)

theorem gives_oneCar : Gives (fun n => (exec n .start (addCar 2020 0)).run) (.ok oneCar) :=
  gives_of_rounds fun _ => rfl

theorem reached_oneCar : Reached oneCar :=
  .call .start (clear_of_element (by decide) rfl fun _ => rfl) gives_oneCar

def bothCars : State := result oneCar (addCar 2010 1)

def withModels : State := result bothCars (read opGetModels 0 true)

def withCars : State := result withModels (read opGetListByYear (-1) true)

/-- Two cars, their models, and the array of the cars, which orders them. -/
theorem safe_withCars :
    Gives (fun n => (exec n oneCar (addCar 2010 1)).run) (.ok bothCars) ∧
    Gives (fun n => (exec n bothCars (read opGetModels 0 true)).run) (.ok withModels) ∧
    Gives (fun n => (exec n withModels (read opGetListByYear (-1) true)).run) (.ok withCars) ∧
    withModels.reply.map MessagePtr.nModels = some 2 ∧
    withCars.reply.map MessagePtr.nCars = some 2 ∧ Safe withCars := by
  have hadd : Gives (fun n => (exec n oneCar (addCar 2010 1)).run) (.ok bothCars) :=
    gives_of_rounds fun _ => rfl
  have hmodels : Gives (fun n => (exec n bothCars (read opGetModels 0 true)).run) (.ok withModels) :=
    gives_of_rounds fun _ => rfl
  have hcars : Gives (fun n => (exec n withModels (read opGetListByYear (-1) true)).run)
      (.ok withCars) := gives_of_rounds fun _ => rfl
  have hboth := reached_oneCar.call (clear_of_element (by decide) rfl fun _ => rfl) hadd
  have hlisted := hboth.call (clear_of_element (by decide) rfl fun _ => rfl) hmodels
  have hordered := hlisted.call (clear_of_element (by decide) rfl fun _ => rfl) hcars
  exact ⟨hadd, hmodels, hcars, rfl, rfl, safe_of_reached hordered⟩

/-- An `OP_GETMODELS` for which `malloc` has no array. -/
def getModels : Event :=
  ⟨.invoke (some ⟨{ MessageT.init with opcode := opGetModels, cType := ctNone }, rfl, rfl,
    by simp [MessageT.init]⟩), fun _ => ⟨2026, true, ⟨2026, none, none⟩⟩,
    ⟨false, true, fun _ => true⟩⟩

/-- The error reply then promises a model that it does not have. -/
theorem getModels_inexact : ∃ s t m, Reached s ∧
    Gives (fun n => (exec n s getModels).run) (.ok t) ∧ t.reply = some m ∧ ¬ Exact m := by
  refine ⟨oneCar, result oneCar getModels, _, reached_oneCar, gives_of_rounds fun _ => rfl, rfl,
    fun h => ?_⟩
  exact absurd h.models (by decide)

end ListServer.ListSafety
