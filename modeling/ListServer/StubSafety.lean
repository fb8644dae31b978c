import ListServer.RequestSafety
import ListServer.RemoteCalls

namespace ListServer.StubSafety

open Lib.CTypes Lib.Pointer CarData CarList Message ClientStub
open RequestSafety (MessagePtr Unpacked arrayOf)
open RemoteCalls (Answer protoToMarca protoToCombustivel createAll)

/-- A `struct data_t` as a caller fills it. -/
structure CarArg where
  ano : Int
  preco : Single
  marca : Int
  modelo : Option CString
  combustivel : Int
deriving DecidableEq

/-- The calls of the stub with their arguments, of which pointers may be NULL. -/
inductive Request
  | add (car : Option CarArg)
  | removeByModel (modelo : Option CString)
  | getByMarca (marca : Int)
  | getByYear (ano : Int)
  | orderByYear
  | size
  | getModelList
deriving DecidableEq

def opSuccess (res : Option MessagePtr) (opcode ctype : Int) : Bool :=
  res.any fun msg => decide (msg.opcode = opcode + 1) && decide (msg.opcode ≠ opBad) &&
    decide (msg.cType = ctype)

/-- `res` is what `network_send_receive` gives, and so in the other calls. -/
def rlistAdd (car : Option CarArg) (res : Option MessagePtr) : Except Fault Int :=
  match car with
  | none => .ok (-1)
  | some car =>
    if marcaToProto car.marca = -1 ∨ combustivelToProto car.combustivel = -1 then .ok (-1)
    else do
      let _ ← deref car.modelo
      if !opSuccess res opAdd ctNone then return -1 else return 0

def rlistRemoveByModel (modelo : Option CString) (res : Option MessagePtr) : Except Fault Int :=
  match modelo with
  | none => .ok (-1)
  | some _ => do
    let res ← deref res
    if res.opcode = opDel + 1 ∧ res.cType = ctResult then return res.result else return -1

def rlistGetByMarca (anoAtual marca : Int) (res : Option MessagePtr) :
    Except Fault (Option DataT) :=
  if marcaToProto marca = -1 then .ok none
  else if !opSuccess res opGet ctData then .ok none
  else do
    let res ← deref res
    let d ← deref res.data
    return dataCreate anoAtual d.ano d.preco (protoToMarca d.marca) d.modelo
      (protoToCombustivel d.combustivel)

/-- The loop over the cars of a reply, with `n` cars to go from the index `i`. -/
def createCars (anoAtual : Int) (cars : Option (List (Option Data))) :
    Nat → Nat → Except Fault (Option (List DataT))
  | _, 0 => .ok (some [])
  | i, n + 1 => do
    let p ← index cars i
    let d ← deref p
    match dataCreate anoAtual d.ano d.preco d.marca d.modelo d.combustivel with
    | none => return none
    | some car =>
      let rest ← createCars anoAtual cars (i + 1) n
      return rest.map (car :: ·)

def rlistGetByYear (anoAtual : Int) (res : Option MessagePtr) :
    Except Fault (Option (List DataT)) :=
  if !opSuccess res opGetListByYear ctList then .ok none
  else do
    let res ← deref res
    if res.nCars = 0 then return none
    createCars anoAtual res.cars 0 res.nCars

def rlistOrderByYear (anoAtual : Int) (res : Option MessagePtr) : Except Fault Int := do
  let cars ← rlistGetByYear anoAtual res
  if cars.isNone then return -1 else return 0

def rlistSize (res : Option MessagePtr) : Except Fault Int :=
  if !opSuccess res opSize ctResult then .ok (-1) else (deref res).map MessagePtr.result

def rlistGetModelList (res : Option MessagePtr) : Except Fault (Option (List CString)) :=
  if !opSuccess res opGetModels ctModel then .ok none
  else do
    let res ← deref res
    let models ← readPointers res.models 0 res.nModels
    return some models

/-- A call with an `rlist` that is not NULL. -/
def call (anoAtual : Int) (q : Request) (res : Option MessagePtr) : Except Fault Answer :=
  match q with
  | .add car => (rlistAdd car res).map .code
  | .removeByModel modelo => (rlistRemoveByModel modelo res).map .code
  | .getByMarca marca => (rlistGetByMarca anoAtual marca res).map .car
  | .getByYear _ => (rlistGetByYear anoAtual res).map .cars
  | .orderByYear => (rlistOrderByYear anoAtual res).map .code
  | .size => (rlistSize res).map .code
  | .getModelList => (rlistGetModelList res).map .models

def errorValue : Request → Answer
  | .add _ | .removeByModel _ | .orderByYear | .size => .code (-1)
  | .getByMarca _ => .car none
  | .getByYear _ => .cars none
  | .getModelList => .models none

/-- Every call looks at `rlist` before anything else. -/
def stub (anoAtual : Int) (rlist : Bool) (q : Request) (res : Option MessagePtr) :
    Except Fault Answer :=
  if !rlist then .ok (errorValue q) else call anoAtual q res

def expected : Request → Int × Int
  | .add _ => (opAdd, ctNone)
  | .removeByModel _ => (opDel, ctResult)
  | .getByMarca _ => (opGet, ctData)
  | .getByYear _ | .orderByYear => (opGetListByYear, ctList)
  | .size => (opSize, ctResult)
  | .getModelList => (opGetModels, ctModel)

/-- The outcome is the success reply of the call. That of `rlist_get_by_marca`
has a car in it. -/
def IsSuccess (q : Request) (res : Option Unpacked) : Prop :=
  ∃ u, res = some u ∧ u.msg.opcode = (expected q).1 + 1 ∧ u.msg.cType = (expected q).2 ∧
    ∀ marca, q = .getByMarca marca → u.msg.data ≠ none

/-- No NULL pointer is dereferenced, and without a success reply the error value
is returned, where `malloc` and `strdup` succeed. -/
def Survives (anoAtual : Int) (rlist : Bool) (q : Request) (res : Option Unpacked) : Prop :=
  ∃ answer, stub anoAtual rlist q (res.map Unpacked.inMemory) = .ok answer ∧
    (¬ IsSuccess q res → answer = errorValue q)

def KnownMarca (marca : Int) : Prop := marcaToyota ≤ marca ∧ marca ≤ marcaMercedes

def KnownCombustivel (combustivel : Int) : Prop :=
  combustivelGasolina ≤ combustivel ∧ combustivel ≤ combustivelHibrido

/-- A car to add has a model, the request to remove one gets a reply, and a
reply with the code and the type of a car has one. -/
def Guarded (q : Request) (res : Option Unpacked) : Prop :=
  match q with
  | .add (some car) => KnownMarca car.marca → KnownCombustivel car.combustivel → car.modelo ≠ none
  | .removeByModel (some _) => res ≠ none
  | .getByMarca marca => KnownMarca marca →
    ∀ u, res = some u → u.msg.opcode = opGet + 1 → u.msg.cType = ctData → u.msg.data ≠ none
  | _ => True

theorem marcaToProto_eq_neg {marca : Int} : marcaToProto marca = -1 ↔ ¬ KnownMarca marca := by
  rw [marcaToProto_eq, KnownMarca]
  split
  next h =>
    simp only [marcaToyota, marcaMercedes] at h
    simp only [h, not_true, iff_false, and_self, marcaToyota, marcaMercedes]
    omega
  next h => exact iff_of_true rfl h

theorem combustivelToProto_eq_neg {combustivel : Int} :
    combustivelToProto combustivel = -1 ↔ ¬ KnownCombustivel combustivel := by
  rw [combustivelToProto_eq, KnownCombustivel]
  split
  next h =>
    simp only [combustivelGasolina, combustivelHibrido] at h
    simp only [h, not_true, iff_false, and_self, combustivelGasolina, combustivelHibrido]
    omega
  next h => exact iff_of_true rfl h

theorem opSuccess_inMemory {res : Option Unpacked} {opcode ctype : Int} (hop : opcode + 1 ≠ opBad) :
    opSuccess (res.map Unpacked.inMemory) opcode ctype = true ↔
      ∃ u, res = some u ∧ u.msg.opcode = opcode + 1 ∧ u.msg.cType = ctype := by
  cases res with
  | none => simp [opSuccess]
  | some u =>
    simp only [opSuccess, Option.map_some, Option.any_some, Bool.and_eq_true, decide_eq_true_eq,
      Option.some.injEq]
    constructor
    · rintro ⟨⟨h1, -⟩, h2⟩
      exact ⟨u, rfl, h1, h2⟩
    · rintro ⟨v, rfl, h1, h2⟩
      exact ⟨⟨h1, fun h => hop (h1.symm.trans h)⟩, h2⟩

theorem createCars_eq (anoAtual : Int) (ds : List Data) {i n : Nat} (h : i + n = ds.length) :
    createCars anoAtual (some (ds.map some)) i n = .ok (createAll anoAtual (ds.drop i)) := by
  induction n generalizing i with
  | zero =>
    rw [List.drop_of_length_le (by omega)]
    rfl
  | succ n ih =>
    have hi : i < ds.length := by omega
    have hindex := index_map_some hi []
    rw [List.append_nil] at hindex
    have hrest := ih (i := i + 1) (by omega)
    rw [List.drop_eq_getElem_cons hi, createAll, List.mapM_cons, createCars]
    simp only [hindex, bind, Except.bind, deref, hrest, List.get_eq_getElem]
    cases dataCreate anoAtual (ds[i]).ano (ds[i]).preco (ds[i]).marca (ds[i]).modelo
      (ds[i]).combustivel with
    | none => rfl
    | some car =>
      rw [createAll]
      cases (ds.drop (i + 1)).mapM fun d =>
        dataCreate anoAtual d.ano d.preco d.marca d.modelo d.combustivel <;> rfl

theorem createCars_inMemory (anoAtual : Int) (u : Unpacked) :
    createCars anoAtual u.inMemory.cars 0 u.inMemory.nCars =
      .ok (createAll anoAtual u.msg.cars) := by
  have hn : u.inMemory.nCars = u.msg.cars.length := u.cars
  have hcars : u.inMemory.cars = arrayOf u.msg.cars := rfl
  rw [hn, hcars, arrayOf]
  cases hds : u.msg.cars with
  | nil => rfl
  | cons d ds =>
    have h := createCars_eq anoAtual (d :: ds) (i := 0) (Nat.zero_add _)
    rwa [List.drop_zero] at h

def ofCall : Call → Request
  | .add car => .add (some ⟨car.ano, car.preco, car.marca, some car.modelo, car.combustivel⟩)
  | .removeByModel modelo => .removeByModel (some modelo)
  | .getByMarca marca => .getByMarca marca
  | .getByYear ano => .getByYear ano
  | .orderByYear => .orderByYear
  | .size => .size
  | .getModelList => .getModelList

theorem opSuccess_eq_success (res : Option Unpacked) (opcode ctype : Int) :
    opSuccess (res.map Unpacked.inMemory) opcode ctype =
      RemoteCalls.success (res.map Unpacked.msg) opcode ctype := by
  cases res <;> rfl

theorem rlistGetByYear_eq (anoAtual : Int) (res : Option Unpacked) :
    rlistGetByYear anoAtual (res.map Unpacked.inMemory) =
      RemoteCalls.rlistGetByYearResult anoAtual (res.map Unpacked.msg) := by
  rw [rlistGetByYear, RemoteCalls.rlistGetByYearResult, opSuccess_eq_success]
  cases res with
  | none => rfl
  | some u =>
    have hn : u.inMemory.nCars = u.msg.nCars := rfl
    have hcars := createCars_inMemory anoAtual u
    rw [hn] at hcars
    have htake : u.msg.cars.take u.msg.nCars = u.msg.cars :=
      List.take_of_length_le (Nat.le_of_eq u.cars.symm)
    simp only [Option.map_some, deref, bind, Except.bind, hcars, hn, htake, pure, Except.pure]

theorem call_eq_result (anoAtual : Int) {q : Call} {msg : MessageT} (hq : q.message = some msg)
    (res : Option Unpacked) : call anoAtual (ofCall q) (res.map Unpacked.inMemory) =
      RemoteCalls.result anoAtual (res.map Unpacked.msg) q := by
  cases q with
  | add car =>
    obtain ⟨hsend, -⟩ := Option.ite_none_left_eq_some.mp hq
    simp only [ofCall, call, rlistAdd, if_neg hsend, opSuccess_eq_success, RemoteCalls.result,
      RemoteCalls.rlistAddResult, deref, bind, Except.bind]
    rfl
  | removeByModel modelo => cases res <;> rfl
  | getByMarca marca =>
    obtain ⟨hsend, -⟩ := Option.ite_none_left_eq_some.mp hq
    simp only [ofCall, call, rlistGetByMarca, if_neg hsend, opSuccess_eq_success,
      RemoteCalls.result, RemoteCalls.rlistGetByMarcaResult]
    cases res <;> rfl
  | getByYear ano =>
    rw [ofCall, call, rlistGetByYear_eq, RemoteCalls.result]
  | orderByYear =>
    rw [ofCall, call, rlistOrderByYear, rlistGetByYear_eq, RemoteCalls.result,
      RemoteCalls.rlistGetByYearResult, RemoteCalls.rlistOrderByYearResult]
    cases RemoteCalls.success (res.map Unpacked.msg) opGetListByYear ctList with
    | false => rfl
    | true =>
      cases res with
      | none => rfl
      | some u =>
        simp only [Option.map_some, deref, bind, Except.bind, Bool.not_true, Bool.false_eq_true,
          if_false, pure, Except.pure]
        by_cases hn : u.msg.nCars = 0
        · rw [if_pos hn, if_pos hn]
          rfl
        · rw [if_neg hn, if_neg hn]
  | size =>
    simp only [ofCall, call, rlistSize, opSuccess_eq_success, RemoteCalls.result,
      RemoteCalls.rlistSizeResult]
    cases res <;> rfl
  | getModelList =>
    simp only [ofCall, call, rlistGetModelList, opSuccess_eq_success, RemoteCalls.result,
      RemoteCalls.rlistGetModelListResult]
    cases res with
    | none => rfl
    | some u =>
      have hread := (RequestSafety.holds_inMemory u).models
      have htake : u.msg.models.take u.msg.nModels = u.msg.models :=
        List.take_of_length_le (Nat.le_of_eq u.models.symm)
      simp only [Option.map_some, deref, bind, Except.bind, hread, htake]
      rfl

section Calls

variable (anoAtual : Int) {res : Option Unpacked}

/-- Without the success reply `op_success` says no, if the type of the success
reply has no more to it. -/
theorem opSuccess_of_not {q : Request} (hq : ∀ marca, q ≠ .getByMarca marca)
    (h : ¬ IsSuccess q res) :
    opSuccess (res.map Unpacked.inMemory) (expected q).1 (expected q).2 = false := by
  have hop : (expected q).1 + 1 ≠ opBad := by
    cases q <;> simp [expected, opAdd, opDel, opGet, opGetListByYear, opSize, opGetModels, opBad]
  rw [← Bool.not_eq_true, opSuccess_inMemory hop]
  rintro ⟨u, hu, h1, h2⟩
  exact h ⟨u, hu, h1, h2, fun marca he => absurd he (hq marca)⟩

theorem survives_add (car : Option CarArg) :
    Survives anoAtual true (.add car) res ↔ Guarded (.add car) res := by
  cases car with
  | none => exact iff_of_true ⟨_, rfl, fun _ => rfl⟩ trivial
  | some car =>
    have hcond : marcaToProto car.marca = -1 ∨ combustivelToProto car.combustivel = -1 ↔
        ¬ (KnownMarca car.marca ∧ KnownCombustivel car.combustivel) := by
      rw [marcaToProto_eq_neg, combustivelToProto_eq_neg, not_and_or]
    simp only [Survives, stub, call, rlistAdd, Guarded, Bool.not_true, Bool.false_eq_true, if_false]
    by_cases hknown : KnownMarca car.marca ∧ KnownCombustivel car.combustivel
    · rw [if_neg fun h => hcond.mp h hknown]
      cases hmodelo : car.modelo with
      | none =>
        refine iff_of_false ?_ fun h => h hknown.1 hknown.2 rfl
        rintro ⟨answer, hanswer, -⟩
        cases hanswer
      | some modelo =>
        refine iff_of_true ?_ fun _ _ => Option.some_ne_none modelo
        by_cases hs : opSuccess (res.map Unpacked.inMemory) opAdd ctNone = true
        · refine ⟨.code 0, by simp only [deref, bind, Except.bind, hs]; rfl, fun hno => ?_⟩
          have hfalse := opSuccess_of_not (q := .add (some car)) (by simp) hno
          cases hs.symm.trans hfalse
        · rw [Bool.not_eq_true] at hs
          exact ⟨.code (-1), by simp only [deref, bind, Except.bind, hs]; rfl, fun _ => rfl⟩
    · rw [if_pos (hcond.mpr hknown)]
      exact iff_of_true ⟨_, rfl, fun _ => rfl⟩ fun hm hc => absurd ⟨hm, hc⟩ hknown

theorem survives_removeByModel (modelo : Option CString) :
    Survives anoAtual true (.removeByModel modelo) res ↔ Guarded (.removeByModel modelo) res := by
  cases modelo with
  | none => exact iff_of_true ⟨_, rfl, fun _ => rfl⟩ trivial
  | some modelo =>
    cases res with
    | none =>
      refine iff_of_false ?_ fun h => h rfl
      rintro ⟨answer, hanswer, -⟩
      cases hanswer
    | some u =>
      refine iff_of_true ?_ (Option.some_ne_none u)
      by_cases hok : u.inMemory.opcode = opDel + 1 ∧ u.inMemory.cType = ctResult
      · refine ⟨.code u.msg.result, ?_, fun hno => absurd ⟨u, rfl, hok.1, hok.2, nofun⟩ hno⟩
        simp only [stub, call, rlistRemoveByModel, Option.map_some, deref, bind, Except.bind,
          if_pos hok]
        rfl
      · refine ⟨.code (-1), ?_, fun _ => rfl⟩
        simp only [stub, call, rlistRemoveByModel, Option.map_some, deref, bind, Except.bind,
          if_neg hok]
        rfl

theorem survives_getByMarca (marca : Int) :
    Survives anoAtual true (.getByMarca marca) res ↔ Guarded (.getByMarca marca) res := by
  simp only [Survives, stub, call, rlistGetByMarca, Guarded, Bool.not_true, Bool.false_eq_true,
    if_false]
  by_cases hm : KnownMarca marca
  · rw [if_neg fun h => marcaToProto_eq_neg.mp h hm]
    by_cases hs : opSuccess (res.map Unpacked.inMemory) opGet ctData = true
    · obtain ⟨u, rfl, hop, hct⟩ := (opSuccess_inMemory (by decide)).mp hs
      rw [hs, Bool.not_true, if_neg Bool.false_ne_true]
      have hdata : u.inMemory.data = u.msg.data := rfl
      simp only [Option.map_some, deref, bind, Except.bind, hdata]
      cases hd : u.msg.data with
      | none =>
        refine iff_of_false ?_ fun h => h hm u rfl hop hct hd
        rintro ⟨answer, hanswer, -⟩
        cases hanswer
      | some d =>
        have hsome : u.msg.data ≠ none := fun hnone => by
          rw [hd] at hnone
          cases hnone
        refine iff_of_true
          ⟨_, rfl, fun hno => absurd ⟨u, rfl, hop, hct, fun _ _ => hsome⟩ hno⟩ ?_
        intro _ v hv _ _
        rwa [← Option.some.inj hv]
    · refine iff_of_true ⟨.car none, ?_, fun _ => rfl⟩ fun _ u hu hop hct => ?_
      · rw [Bool.not_eq_true] at hs
        rw [hs]
        rfl
      · exact absurd ((opSuccess_inMemory (by decide)).mpr ⟨u, hu, hop, hct⟩) hs
  · rw [if_pos (marcaToProto_eq_neg.mpr hm)]
    exact iff_of_true ⟨_, rfl, fun _ => rfl⟩ fun h => absurd h hm

theorem rlistGetByYear_inMemory (res : Option Unpacked) :
    ∃ cars, rlistGetByYear anoAtual (res.map Unpacked.inMemory) = .ok cars ∧
      (opSuccess (res.map Unpacked.inMemory) opGetListByYear ctList = false → cars = none) := by
  rw [rlistGetByYear]
  by_cases hs : opSuccess (res.map Unpacked.inMemory) opGetListByYear ctList = true
  · obtain ⟨u, rfl, -, -⟩ := (opSuccess_inMemory (by decide)).mp hs
    have hcars := createCars_inMemory anoAtual u
    rw [hs, Bool.not_true, if_neg Bool.false_ne_true]
    simp only [Option.map_some, deref, bind, Except.bind, hcars]
    split
    · exact ⟨_, rfl, fun h => absurd h.symm Bool.false_ne_true⟩
    · exact ⟨_, rfl, fun h => absurd h.symm Bool.false_ne_true⟩
  · rw [Bool.not_eq_true] at hs
    rw [hs]
    exact ⟨none, rfl, fun _ => rfl⟩

theorem survives_getByYear (ano : Int) : Survives anoAtual true (.getByYear ano) res := by
  obtain ⟨cars, hcars, hnone⟩ := rlistGetByYear_inMemory anoAtual res
  refine ⟨.cars cars, ?_, fun hno => ?_⟩
  · simp only [stub, call, Bool.not_true, Bool.false_eq_true, if_false, hcars]
    rfl
  · rw [hnone (opSuccess_of_not (q := .getByYear ano) nofun hno)]
    rfl

theorem survives_orderByYear : Survives anoAtual true .orderByYear res := by
  obtain ⟨cars, hcars, hnone⟩ := rlistGetByYear_inMemory anoAtual res
  refine ⟨.code (if cars.isNone then -1 else 0), ?_, fun hno => ?_⟩
  · simp only [stub, call, rlistOrderByYear, Bool.not_true, Bool.false_eq_true, if_false, hcars,
      bind, Except.bind]
    cases cars <;> rfl
  · rw [hnone (opSuccess_of_not (q := .orderByYear) nofun hno)]
    rfl

theorem survives_size : Survives anoAtual true .size res := by
  by_cases hs : opSuccess (res.map Unpacked.inMemory) opSize ctResult = true
  · obtain ⟨u, rfl, hop, hct⟩ := (opSuccess_inMemory (by decide)).mp hs
    refine ⟨.code u.msg.result, ?_, fun hno => absurd ⟨u, rfl, hop, hct, nofun⟩ hno⟩
    simp only [stub, call, rlistSize, hs]
    rfl
  · rw [Bool.not_eq_true] at hs
    refine ⟨.code (-1), ?_, fun _ => rfl⟩
    simp only [stub, call, rlistSize, hs]
    rfl

theorem survives_getModelList : Survives anoAtual true .getModelList res := by
  by_cases hs : opSuccess (res.map Unpacked.inMemory) opGetModels ctModel = true
  · obtain ⟨u, rfl, hop, hct⟩ := (opSuccess_inMemory (by decide)).mp hs
    have hread := (RequestSafety.holds_inMemory u).models
    refine ⟨.models (some u.msg.models), ?_, fun hno => absurd ⟨u, rfl, hop, hct, nofun⟩ hno⟩
    simp only [stub, call, rlistGetModelList, hs]
    simp only [Bool.not_true, Bool.false_eq_true, if_false, Option.map_some, deref, bind,
      Except.bind, hread]
    rfl
  · rw [Bool.not_eq_true] at hs
    refine ⟨.models none, ?_, fun _ => rfl⟩
    simp only [stub, call, rlistGetModelList, hs]
    rfl

/-- A call survives an outcome of its exchange exactly if it has no `rlist` or
is guarded. -/
theorem survives_iff (rlist : Bool) (q : Request) (res : Option Unpacked) :
    Survives anoAtual rlist q res ↔ (rlist = true → Guarded q res) := by
  cases rlist with
  | false => exact iff_of_true ⟨_, rfl, fun _ => rfl⟩ nofun
  | true =>
    rw [forall_prop_of_true rfl]
    cases q with
    | add car => exact survives_add anoAtual car
    | removeByModel modelo => exact survives_removeByModel anoAtual modelo
    | getByMarca marca => exact survives_getByMarca anoAtual marca
    | getByYear ano => exact iff_of_true (survives_getByYear anoAtual ano) trivial
    | orderByYear => exact iff_of_true (survives_orderByYear anoAtual) trivial
    | size => exact iff_of_true (survives_size anoAtual) trivial
    | getModelList => exact iff_of_true (survives_getModelList anoAtual) trivial

end Calls

/-- A removal whose connection breaks. -/
theorem remove_unanswered : ¬ Survives 2026 true (.removeByModel (some (ofBytes [65]))) none := by
  rintro ⟨answer, hanswer, -⟩
  cases hanswer

end ListServer.StubSafety
