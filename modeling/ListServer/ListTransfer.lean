import ListServer.Skeleton

namespace ListServer.ListTransfer

open Lib.CTypes CarData CarList Message Skeleton

def opSuccess (msg : MessageT) (opcode ctype : Int) : Bool :=
  decide (msg.opcode = opcode + 1) && decide (msg.opcode ≠ opBad) && decide (msg.cType = ctype)

def rlistGetListAddRequest : MessageT :=
  { MessageT.init with opcode := opGetListByYear, cType := ctResult, result := -1 }

def addCars (t : AnoAtual) : List Data → ListT → Int × ListT
  | [], list => (0, list)
  | d :: ds, list =>
    match dataCreate t.create d.ano d.preco d.marca d.modelo d.combustivel with
    | none => (-1, list)
    | some car =>
      let (res, list) := listAdd t.dup list car
      if res ≠ 0 then (-1, list) else addCars t ds list

/-- `res` is what `network_send_receive` gave for the request. -/
def rlistGetListAdd (t : AnoAtual) (res : Option MessageT) (list : ListT) : Int × ListT :=
  match res with
  | none => (-1, list)
  | some res =>
    if !opSuccess res opGetListByYear ctList then (-1, list)
    else if res.nCars = 0 then (0, list)
    else addCars t (res.cars.take res.nCars) list

/-- The list of a server whose cars have all passed the validation: its counter
is right and its cars are valid in the given year. -/
structure WellFormed (ano : Int) (list : ListT) : Prop where
  size : list.size = list.head.length
  valid : ∀ car ∈ list.head, Valid ano car

variable {ano : Int} {list : ListT} {msg : MessageT}

theorem wellFormed_create (ano : Int) : WellFormed ano listCreate :=
  ⟨rfl, fun _ h => by simp [listCreate] at h⟩

theorem dataCreate_of_valid {car : DataT} (h : Valid ano car) :
    dataCreate ano car.ano car.preco car.marca (some car.modelo) car.combustivel = some car :=
  dataCreate_eq_some.mpr ⟨rfl, rfl, rfl, rfl, rfl, h⟩

theorem addCars_valid {cars : List DataT} (h : ∀ car ∈ cars, Valid ano car) (list : ListT) :
    addCars (.same ano) (cars.map dataToProtobuf) list =
      (0, ⟨list.size + cars.length, list.head ++ cars⟩) := by
  induction cars generalizing list with
  | nil => simp [addCars]
  | cons car cars ih =>
    have hcar := h car List.mem_cons_self
    have hadd : listAdd ano list car = (0, ⟨list.size + 1, list.head ++ [car]⟩) := by
      simp [listAdd, dataDup_of_valid hcar]
    simp only [List.map_cons, addCars, AnoAtual.same, dataToProtobuf, dataCreate_of_valid hcar,
      hadd, ne_eq, not_true, if_false]
    rw [show (⟨ano, ano⟩ : AnoAtual) = .same ano from rfl,
      ih (fun c hc => h c (List.mem_cons_of_mem car hc))]
    simp only [List.length_cons, List.append_assoc, List.singleton_append, Prod.mk.injEq,
      ListT.mk.injEq, and_true, true_and]
    omega

theorem wellFormed_order (h : WellFormed ano list) : WellFormed ano (listOrderByYear list) := by
  have hperm := listOrderByYear_perm list
  refine ⟨?_, fun car hc => h.valid car (hperm.mem_iff.mp hc)⟩
  rw [hperm.length_eq, ← h.size]
  rfl

theorem reply_list (t : AnoAtual) (list : ListT) :
    reply t rlistGetListAddRequest list = { rlistGetListAddRequest with
      opcode := opGetListByYear + 1, cType := ctList,
      nCars := (listOrderByYear list).head.length,
      cars := (listOrderByYear list).head.map dataToProtobuf } := rfl

theorem after_list (t : AnoAtual) (list : ListT) :
    after t rlistGetListAddRequest list = listOrderByYear list := rfl

theorem addCars_head {t : AnoAtual} {cars : List DataT} {l : ListT} {rc : Int} (hrc : rc ≠ -1)
    (h : addCars t (cars.map dataToProtobuf) list = (rc, l)) : l.head = list.head ++ cars := by
  induction cars generalizing list with
  | nil =>
    obtain ⟨-, rfl⟩ := Prod.mk.inj h
    rw [List.append_nil]
  | cons car cars ih =>
    simp only [List.map_cons, addCars, dataToProtobuf] at h
    cases hc : dataCreate t.create car.ano car.preco car.marca (some car.modelo)
      car.combustivel with
    | none =>
      rw [hc] at h
      exact absurd (Prod.mk.inj h).1.symm hrc
    | some d =>
      obtain rfl : d = car := by
        have hd := dataCreate_eq_some.mp hc
        cases d; cases car
        simp_all
      cases hd : dataDup t.dup d with
      | none =>
        simp only [hc, listAdd, hd] at h
        exact absurd (Prod.mk.inj h).1.symm hrc
      | some c =>
        obtain ⟨rfl, -⟩ := dataDup_eq_some.mp hd
        simp only [hc, listAdd, hd, ne_eq, not_true, if_false] at h
        rw [ih h, List.append_assoc, List.singleton_append]

/-- A list that has been loaded has the cars of the one that the request left
behind, in their order. -/
theorem load_head {t t' : AnoAtual} {l : ListT} {rc : Int} (hrc : rc ≠ -1)
    (h : rlistGetListAdd t (some (reply t' rlistGetListAddRequest list)) listCreate = (rc, l)) :
    l.head = (after t' rlistGetListAddRequest list).head := by
  rw [reply_list] at h
  rw [after_list]
  generalize listOrderByYear list = k at h
  have hok : opSuccess { rlistGetListAddRequest with
      opcode := opGetListByYear + 1, cType := ctList, nCars := k.head.length,
      cars := k.head.map dataToProtobuf } opGetListByYear ctList = true := rfl
  simp only [rlistGetListAdd, hok, Bool.not_true, Bool.false_eq_true, if_false] at h
  split at h
  next hlen =>
    obtain ⟨-, rfl⟩ := Prod.mk.inj h
    rw [List.length_eq_zero_iff.mp hlen]
    rfl
  next =>
    rw [List.take_of_length_le (by simp)] at h
    exact addCars_head hrc h

/-- Loading the reply to the list request makes a copy of the list that the
request leaves behind. -/
theorem list_transfer (h : WellFormed ano list) (t : AnoAtual) :
    rlistGetListAdd (.same ano) (some (reply t rlistGetListAddRequest list)) listCreate =
      (0, after t rlistGetListAddRequest list) := by
  have hwf := wellFormed_order h
  rw [reply_list, after_list]
  generalize hl : listOrderByYear list = l at hwf
  have hok : opSuccess { rlistGetListAddRequest with
      opcode := opGetListByYear + 1, cType := ctList, nCars := l.head.length,
      cars := l.head.map dataToProtobuf } opGetListByYear ctList = true := rfl
  have hcopy : (⟨(l.head.length : Int), l.head⟩ : ListT) = l := by
    rw [← hwf.size]
  simp only [rlistGetListAdd, hok, Bool.not_true, Bool.false_eq_true, if_false]
  split
  next hlen =>
    have hnil : l.head = [] := List.length_eq_zero_iff.mp hlen
    rw [← hcopy, hnil]
    rfl
  next =>
    rw [List.take_of_length_le (by simp), addCars_valid hwf.valid]
    simpa [listCreate] using hcopy

theorem wellFormed_after (h : WellFormed ano list) (msg : MessageT) :
    WellFormed ano (after (.same ano) msg list) := by
  refine ⟨counted_after h.size _ msg, fun car hcar => ?_⟩
  obtain hcar | ⟨-, hacc⟩ := mem_after hcar
  · exact h.valid car hcar
  · exact (accepted_eq_some.mp hacc).2.1

end ListServer.ListTransfer
