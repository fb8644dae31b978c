import ListServer.Lib.Footprint
import ListServer.ListSafety

namespace ListServer.CarLifetime

open Lib.CTypes Lib.Pointer Lib.Loop Lib.Memory Lib.Footprint CarData Message MemoryList
open ListSafety (invokeSize invokeGet invokeGetListByYear invokeGetModels invokeDel opSuccess)
open RequestSafety (MessagePtr Unpacked)

/-- What the addition of a received car meets: the year that `data_create`
reads, the place that `malloc` gives for the car, and the call of `list_add`. -/
structure Visit where
  t : Int
  place : Option Nat
  add : Addition
deriving DecidableEq

/-- The received car lies in memory beside those of the list. -/
def dataCreate (v : Visit) (mem : Mem) (d : Data) : Option (Nat × Mem) :=
  (CarData.dataCreate v.t d.ano d.preco d.marca d.modelo d.combustivel).bind fun car =>
    (malloc mem.records v.place).map fun p => (p, { mem with records := store mem.records p car })

def dataDestroy (records : Heap DataT) (data : Option Nat) : Except Fault (Int × Heap DataT) :=
  if data = none then .ok (-1, records) else (free records data).map fun records => (0, records)

def invokeAdd (fuel : Nat) (v : Visit) (msg : MessagePtr) (mem : Mem) :
    Prog (Int × MessagePtr × Mem) :=
  match msg.data with
  | none => return (-1, msg.error, mem)
  | some d =>
    match dataCreate v mem d with
    | none => return (-1, msg.error, mem)
    | some (p, mem) => do
      let car ← access (load mem.records (some p))
      let (res, mem) ← listAdd fuel v.add mem (some car)
      let (_, records) ← access (dataDestroy mem.records (some p))
      let mem := { mem with records := records }
      if res = 0 then
        return (0, { msg with opcode := msg.opcode + 1, cType := ctNone, result := 0 }, mem)
      else return (0, msg.error, mem)

def invoke (fuel : Nat) (v : Visit) (b : Building) (msg : MessagePtr) (mem : Mem) :
    Prog (Int × MessagePtr × Mem) :=
  if msg.opcode = opSize then return invokeSize msg mem
  else if msg.opcode = opAdd then invokeAdd fuel v msg mem
  else if msg.opcode = opGet then invokeGet fuel b msg mem
  else if msg.opcode = opGetListByYear then invokeGetListByYear fuel b msg mem
  else if msg.opcode = opGetModels then invokeGetModels fuel b msg mem
  else if msg.opcode = opDel then invokeDel fuel msg mem
  else return (0, msg.error, mem)

/-- The loop of `rlist_get_list_add` over the cars of the reply, of which the
first here has the index `i`. -/
def addCars (fuel : Nat) (vs : Nat → Visit) : Nat → List Data → Mem → Prog (Int × Mem)
  | _, [], mem => return (0, mem)
  | i, d :: ds, mem =>
    match dataCreate (vs i) mem d with
    | none => return (-1, mem)
    | some (p, mem) => do
      let car ← access (load mem.records (some p))
      let (res, mem) ← listAdd fuel (vs i).add mem (some car)
      if res ≠ 0 then
        let (_, records) ← access (dataDestroy mem.records (some p))
        return (-1, { mem with records := records })
      -- the car is not destroyed here, although `list_add` has made a copy of it
      else addCars fuel vs (i + 1) ds mem

/-- `res` is what `network_send_receive` gave for the request. -/
def rlistGetListAdd (fuel : Nat) (vs : Nat → Visit) (res : Option MessagePtr) (mem : Mem) :
    Prog (Int × Mem) :=
  match res with
  | none => return (-1, mem)
  | some res =>
    if !opSuccess res opGetListByYear ctList then return (-1, mem)
    else if res.nCars = 0 then return (0, mem)
    else do
      let cars ← access (readPointers res.cars 0 res.nCars)
      addCars fuel vs 0 cars mem

def destroyStep : Heap CarT × Heap DataT × Option Nat →
    (Heap CarT × Heap DataT × Option Nat) ⊕ Except Fault (Int × Heap CarT × Heap DataT)
  | (nodes, records, none) => .inr (.ok (0, nodes, records))
  | (nodes, records, some a) =>
    match (do
      let node ← load nodes (some a)
      let (_, records) ← dataDestroy records node.data
      let nodes ← free nodes (some a)
      pure (nodes, records, node.next) : Except Fault (Heap CarT × Heap DataT × Option Nat)) with
    | .error e => .inr (.error e)
    | .ok s => .inl s

def listDestroy (fuel : Nat) (mem : Mem) : Prog (Int × Heap CarT × Heap DataT) :=
  ExceptT.mk (loop destroyStep fuel (mem.nodes, mem.records, mem.head))

/-- The calls of a server on its list. A NULL argument is `none`. -/
inductive Call
  | invoke (msg : Option Unpacked)
  | getListAdd (res : Option Unpacked)

structure Event where
  call : Call
  visits : Nat → Visit
  building : Building

/-- The list, the result of the last call with its message, if that was an
`invoke`, and the number of cars that `rlist_get_list_add` has put in. -/
structure State where
  mem : Mem
  reply : Option (Int × MessagePtr)
  copied : Nat

def State.start : State := ⟨listCreate, none, 0⟩

def exec (fuel : Nat) (s : State) (e : Event) : Prog State :=
  match e.call with
  | .invoke none => return { s with reply := none }
  | .invoke (some u) => do
    let (rc, msg, mem) ← invoke fuel (e.visits 0) e.building u.inMemory s.mem
    return ⟨mem, some (rc, msg), s.copied⟩
  | .getListAdd res => do
    let (_, mem) ← rlistGetListAdd fuel e.visits (res.map Unpacked.inMemory) s.mem
    return ⟨mem, none, s.copied + (mem.size - s.mem.size).toNat⟩

def Call.brings : Call → Nat
  | .invoke (some u) => if u.msg.opcode = opAdd then 1 else 0
  | .getListAdd (some u) => u.msg.cars.length
  | _ => 0

/-- The states that calls lead to for which the counter has room. -/
inductive Reached : State → Prop
  | start : Reached .start
  | call {s t : State} {e : Event} (hs : Reached s) (hroom : s.mem.size + e.call.brings ≤ intMax)
      (ht : Gives (fun n => (exec n s e).run) (.ok t)) : Reached t

/-- What `list_destroy` would find and leave. -/
structure Accounted (s : State) : Prop where
  nodes : Holds s.mem.nodes s.mem.size.toNat
  records : Holds s.mem.records (s.mem.size.toNat + s.copied)
  destroyed : ∃ records, Holds records s.copied ∧
    Gives (fun n => (listDestroy n s.mem).run) (.ok (0, fun _ => none, records))
  clean : s.copied = 0 → Gives (fun n => (listDestroy n s.mem).run)
    (.ok (0, fun _ => none, fun _ => none))

/-- The memory holds a list, its nodes and cars, and `k` more cars. -/
structure Chain (mem : Mem) (cells : List Cell) (k : Nat) : Prop where
  represents : Represents mem cells
  nodes : Holds mem.nodes cells.length
  records : Holds mem.records (cells.length + k)

theorem chain_create : Chain listCreate [] 0 := ⟨represents_create, holds_empty, holds_empty⟩

section Add

variable {mem : Mem} {cells : List Cell} {k : Nat}

theorem run_link {n new : Nat} {mem' : Mem} (h : (link n mem new).run = some (.ok mem')) {j : Nat}
    (hk : Holds mem.nodes j) : Holds mem'.nodes j ∧ mem'.records = mem.records := by
  rw [link] at h
  split at h
  · obtain rfl := run_pure_eq_ok.mp h
    exact ⟨hk, rfl⟩
  · obtain ⟨current, -, h⟩ := run_bind_eq_ok.mp h
    obtain ⟨nodes, hnodes, h⟩ := run_bind_eq_ok.mp h
    obtain rfl := run_pure_eq_ok.mp h
    exact ⟨holds_modify hk (run_access_eq_ok.mp hnodes), rfl⟩

theorem chain_add (h : Chain mem cells k) (hmax : mem.size < intMax) (w : Addition)
    (car : Option DataT) :
    Gives (fun n => (listAdd n w mem car).run) (.ok (-1, mem)) ∨ ∃ c mem',
      Gives (fun n => (listAdd n w mem car).run) (.ok (0, mem')) ∧ Chain mem' (cells ++ [c]) k ∧
        mem.records c.data = none ∧ mem'.records = store mem.records c.data c.car := by
  cases hp : placed w mem car with
  | none => exact .inl (gives_listAdd_none hp)
  | some c =>
    obtain ⟨mem', hgives, hrep, -⟩ := gives_listAdd h.represents hp hmax
    obtain ⟨rfl, hv, hnew, hd⟩ := placed_eq_some.mp hp
    obtain ⟨n, hn⟩ := hgives
    have hrun := hn n (Nat.le_refl n)
    have hdup : MemoryList.dataDup w mem c.car = some (c.data, store mem.records c.data c.car) := by
      rw [MemoryList.dataDup, dataDup_of_valid hv, hd]
      rfl
    simp only [listAdd, hnew, hdup] at hrun
    obtain ⟨linked, hlink, hrun⟩ := run_bind_eq_ok.mp hrun
    obtain ⟨hnodes, hrecords⟩ := run_link hlink
      (holds_store_new h.nodes (malloc_eq_some hnew) ⟨some c.data, none⟩)
    obtain ⟨-, rfl⟩ := Prod.mk.inj (run_pure_eq_ok.mp hrun)
    have hfree := malloc_eq_some hd
    have hnew := holds_store_new h.records hfree c.car
    refine .inr ⟨c, _, ⟨n, hn⟩, ⟨hrep, ?_, ?_⟩, hfree, hrecords⟩
    · rw [List.length_append]
      exact hnodes
    · rw [List.length_append, List.length_singleton, Nat.add_right_comm]
      exact hrecords ▸ hnew

theorem chain_store (h : Chain mem cells k) {p : Nat} (hp : mem.records p = none) (car : DataT) :
    Chain { mem with records := store mem.records p car } cells (k + 1) := by
  obtain ⟨hchain, hrecords, hdistinct, hsize⟩ := h.represents
  refine ⟨⟨hchain, fun c hc => ?_, hdistinct, hsize⟩, h.nodes, holds_store_new h.records hp car⟩
  have hrec := hrecords c hc
  have hne : c.data ≠ p := fun he => by
    rw [he, hp] at hrec
    cases hrec
  exact (store_of_ne hne car).trans hrec

theorem chain_destroy (h : Chain mem cells (k + 1)) {p : Nat} {car : DataT}
    (hp : mem.records p = some car) (hfresh : ∀ c ∈ cells, c.data ≠ p) :
    ∃ records, dataDestroy mem.records (some p) = .ok (0, records) ∧
      Chain { mem with records := records } cells k := by
  obtain ⟨hchain, hrecords, hdistinct, hsize⟩ := h.represents
  refine ⟨Function.update mem.records p none, ?_, ⟨hchain, fun c hc => ?_, hdistinct, hsize⟩,
    h.nodes, holds_erase h.records hp⟩
  · rw [dataDestroy, if_neg (Option.some_ne_none p), free_some hp]
    rfl
  · exact (Function.update_of_ne (hfresh c hc) _ _).trans (hrecords c hc)

theorem dataCreate_eq_some {v : Visit} {d : Data} {p : Nat} {mem' : Mem}
    (h : dataCreate v mem d = some (p, mem')) :
    ∃ car, mem.records p = none ∧ mem' = { mem with records := store mem.records p car } := by
  obtain ⟨car, -, h⟩ := Option.bind_eq_some_iff.mp h
  obtain ⟨q, hq, h⟩ := Option.map_eq_some_iff.mp h
  obtain ⟨rfl, rfl⟩ := Prod.mk.inj h
  exact ⟨car, malloc_eq_some hq, rfl⟩

/-- The car that is created stays beside the list through the addition, and can
be destroyed after it. -/
theorem chain_visit (h : Chain mem cells k) (hmax : mem.size < intMax) {v : Visit} {d : Data}
    {p : Nat} {mem₁ : Mem} (hcreate : dataCreate v mem d = some (p, mem₁)) (w : Addition) :
    ∃ car res mem₂ cells', load mem₁.records (some p) = .ok car ∧
      Gives (fun n => (listAdd n w mem₁ (some car)).run) (.ok (res, mem₂)) ∧
      (res = -1 ∧ cells' = cells ∨ res = 0 ∧ ∃ c, cells' = cells ++ [c]) ∧
      Chain mem₂ cells' (k + 1) ∧ ∃ records,
        dataDestroy mem₂.records (some p) = .ok (0, records) ∧
          Chain { mem₂ with records := records } cells' k := by
  obtain ⟨car, hp, rfl⟩ := dataCreate_eq_some hcreate
  have hstored := chain_store h hp car
  have hcar : store mem.records p car p = some car := store_self ..
  have hfresh : ∀ c ∈ cells, c.data ≠ p := fun c hc he => by
    have hrec := h.represents.records c hc
    rw [he, hp] at hrec
    cases hrec
  obtain hadd | ⟨c, mem₂, hadd, hchain, hfree, hrecords⟩ := chain_add hstored hmax w (some car)
  · exact ⟨car, -1, _, cells, load_some hcar, hadd, .inl ⟨rfl, rfl⟩, hstored,
      chain_destroy hstored hcar hfresh⟩
  · have hne : c.data ≠ p := fun he => by
      rw [he] at hfree
      cases hcar.symm.trans hfree
    have hcar₂ : mem₂.records p = some car := by
      rw [hrecords, store_of_ne hne.symm]
      exact hcar
    refine ⟨car, 0, mem₂, _, load_some hcar, hadd, .inr ⟨rfl, c, rfl⟩, hchain,
      chain_destroy hchain hcar₂ fun e he => ?_⟩
    obtain he | he := List.mem_append.mp he
    · exact hfresh e he
    · exact List.mem_singleton.mp he ▸ hne

/-- The skeleton destroys what it creates. -/
theorem chain_invokeAdd (h : Chain mem cells k) (hmax : mem.size < intMax) (v : Visit)
    (msg : MessagePtr) : ∃ rc msg' mem' cells',
      Gives (fun n => (invokeAdd n v msg mem).run) (.ok (rc, msg', mem')) ∧
        Chain mem' cells' k ∧ cells'.length ≤ cells.length + 1 := by
  simp only [invokeAdd]
  cases hd : msg.data with
  | none => exact ⟨-1, msg.error, mem, cells, gives_some _, h, by omega⟩
  | some d =>
    dsimp only
    cases hcreate : dataCreate v mem d with
    | none => exact ⟨-1, msg.error, mem, cells, gives_some _, h, by omega⟩
    | some r =>
      obtain ⟨p, mem₁⟩ := r
      obtain ⟨car, res, mem₂, cells', hload, hadd, hcells, -, records, hdestroy, hchain⟩ :=
        chain_visit h hmax hcreate v.add
      have hle : cells'.length ≤ cells.length + 1 := by
        obtain ⟨-, rfl⟩ | ⟨-, c, rfl⟩ := hcells
        · omega
        · rw [List.length_append, List.length_singleton]
      dsimp only
      by_cases hres : res = 0
      · refine ⟨0, { msg with
            data := some d, opcode := msg.opcode + 1, cType := ctNone, result := 0 }, _, cells', gives_bind (gives_access hload)
            (gives_bind hadd (gives_bind (gives_access hdestroy) ?_)), hchain, hle⟩
        simp only [if_pos hres]
        exact gives_some _
      · refine ⟨0, msg.error, _, cells', gives_bind (gives_access hload)
          (gives_bind hadd (gives_bind (gives_access hdestroy) ?_)), hchain, hle⟩
        simp only [if_neg hres]
        exact gives_some _

/-- What is added is twice in memory. -/
theorem chain_addCars (h : Chain mem cells k) {vs : Nat → Visit} {i : Nat} {ds : List Data}
    (hroom : mem.size + ds.length ≤ intMax) : ∃ res mem' cells' j,
      Gives (fun n => (addCars n vs i ds mem).run) (.ok (res, mem')) ∧
        cells'.length = cells.length + j ∧ j ≤ ds.length ∧ Chain mem' cells' (k + j) := by
  induction ds generalizing i mem cells k with
  | nil => exact ⟨0, mem, cells, 0, gives_some _, rfl, Nat.le_refl 0, h⟩
  | cons d ds ih =>
    rw [List.length_cons] at hroom
    simp only [addCars]
    cases hcreate : dataCreate (vs i) mem d with
    | none => exact ⟨-1, mem, cells, 0, gives_some _, rfl, Nat.zero_le _, h⟩
    | some r =>
      obtain ⟨p, mem₁⟩ := r
      obtain ⟨car, res, mem₂, cells', hload, hadd, hres, hkept, records, hdestroy, hchain⟩ :=
        chain_visit h (by omega) hcreate (vs i).add
      obtain ⟨rfl, rfl⟩ | ⟨rfl, c, rfl⟩ := hres
      · exact ⟨-1, _, cells', 0, gives_bind (gives_access hload)
          (gives_bind hadd (gives_bind (gives_access hdestroy) (gives_some _))), rfl,
          Nat.zero_le _, hchain⟩
      · have hsize := h.represents.size
        have hsize₂ := hkept.represents.size
        rw [List.length_append, List.length_singleton] at hsize₂
        obtain ⟨res, mem', cells', j, hrest, hlength, hle, hchain'⟩ :=
          ih hkept (i := i + 1) (by omega)
        rw [List.length_append, List.length_singleton] at hlength
        exact ⟨res, mem', cells', j + 1, gives_bind (gives_access hload) (gives_bind hadd hrest),
          by omega, Nat.succ_le_succ hle, by rwa [Nat.add_right_comm, Nat.add_assoc] at hchain'⟩

theorem chain_getListAdd (h : Chain mem cells k) (vs : Nat → Visit) (res : Option Unpacked)
    (hroom : mem.size + (Call.getListAdd res).brings ≤ intMax) : ∃ rc mem' cells' j,
      Gives (fun n => (rlistGetListAdd n vs (res.map Unpacked.inMemory) mem).run)
        (.ok (rc, mem')) ∧ cells'.length = cells.length + j ∧
          j ≤ (Call.getListAdd res).brings ∧ Chain mem' cells' (k + j) := by
  cases res with
  | none => exact ⟨-1, mem, cells, 0, gives_some _, rfl, Nat.zero_le _, h⟩
  | some u =>
    simp only [Option.map_some, rlistGetListAdd]
    cases hok : opSuccess u.inMemory opGetListByYear ctList with
    | false => exact ⟨-1, mem, cells, 0, gives_some _, rfl, Nat.zero_le _, h⟩
    | true =>
      simp only [Bool.not_true, Bool.false_eq_true, if_false]
      by_cases hn : u.inMemory.nCars = 0
      · simp only [if_pos hn]
        exact ⟨0, mem, cells, 0, gives_some _, rfl, Nat.zero_le _, h⟩
      · obtain ⟨rc, mem', cells', j, hgives, hlength, hle, hchain⟩ := chain_addCars h hroom
        simp only [if_neg hn]
        exact ⟨rc, mem', cells', j, gives_bind
          (gives_access (RequestSafety.holds_inMemory u).cars) hgives, hlength, hle, hchain⟩

end Add

section Remove

variable {mem mem' : Mem} {cells : List Cell} {k n : Nat} {res : Int}

theorem unlink_holds {prev : Option Nat} {a : Nat} {node : CarT} {data : DataT}
    (hdata : load mem.records node.data = .ok data)
    (h : unlink mem prev (some a) node = .ok (res, mem')) {i j : Nat}
    (hnodes : Holds mem.nodes (i + 1)) (hrecords : Holds mem.records (j + 1)) :
    Holds mem'.nodes i ∧ Holds mem'.records j := by
  obtain ⟨d, hd, hcar⟩ := load_eq_ok hdata
  obtain ⟨mem₁, hmem₁, h⟩ := bind_eq_ok.mp h
  obtain ⟨records, hfreed, h⟩ := bind_eq_ok.mp h
  obtain ⟨nodes, hfree, h⟩ := bind_eq_ok.mp h
  obtain ⟨-, rfl⟩ := Prod.mk.inj (Except.ok.inj h)
  have hlinked : Holds mem₁.nodes (i + 1) ∧ mem₁.records = mem.records := by
    split at hmem₁
    · obtain rfl := Except.ok.inj hmem₁
      exact ⟨hnodes, rfl⟩
    · obtain ⟨linked, hmodify, rfl⟩ := map_eq_ok.mp hmem₁
      exact ⟨holds_modify hnodes hmodify, rfl⟩
  rw [hd, hlinked.2] at hfreed
  obtain ⟨-, rfl⟩ := free_eq_ok hfreed
  obtain ⟨⟨x, hx⟩, rfl⟩ := free_eq_ok hfree
  exact ⟨holds_erase hlinked.1 hx, holds_erase hrecords hcar⟩

theorem run_remove {modelo : CString}
    (h : (listRemoveByModel n mem (some modelo)).run = some (.ok (res, mem'))) :
    res = 1 ∧ mem' = mem ∨ ∀ i j, Holds mem.nodes (i + 1) → Holds mem.records (j + 1) →
      Holds mem'.nodes i ∧ Holds mem'.records j := by
  have hpost := loop_result (removeStep mem modelo) (I := fun _ => True)
    (Q := fun r => ∀ res mem', r = .ok (res, mem') → res = 1 ∧ mem' = mem ∨
      ∀ i j, Holds mem.nodes (i + 1) → Holds mem.records (j + 1) →
        Holds mem'.nodes i ∧ Holds mem'.records j)
    (fun _ _ _ _ => trivial) ?_ trivial h
  · exact hpost res mem' rfl
  rintro ⟨prev, current⟩ r - hr res mem' rfl
  cases current with
  | none =>
    obtain ⟨rfl, rfl⟩ := Prod.mk.inj (Except.ok.inj (Sum.inr.inj hr))
    exact .inl ⟨rfl, rfl⟩
  | some a =>
    rw [removeStep] at hr
    split at hr
    · cases hr
    · next node data hload =>
      split at hr
      · obtain ⟨node', -, hmap⟩ := bind_eq_ok.mp hload
        obtain ⟨data', hdata, hpair⟩ := map_eq_ok.mp hmap
        obtain ⟨rfl, rfl⟩ := Prod.mk.inj hpair
        exact .inr fun i j => unlink_holds hdata (Sum.inr.inj hr)
      · cases hr

theorem chain_remove (h : Chain mem cells k) (hmax : mem.size ≤ intMax)
    (modelo : Option CString) : ∃ res mem' cells',
      Gives (fun n => (listRemoveByModel n mem modelo).run) (.ok (res, mem')) ∧
        Chain mem' cells' k ∧ cells'.length ≤ cells.length := by
  cases modelo with
  | none => exact ⟨-1, mem, cells, gives_some _, h, Nat.le_refl _⟩
  | some modelo =>
    obtain ⟨⟨res, mem'⟩, hgives, hr⟩ := gives_remove h.represents hmax modelo
    have hrun := hgives
    obtain ⟨n, hn⟩ := hrun
    obtain ⟨-, rfl⟩ | hless := run_remove (hn n (Nat.le_refl n))
    · exact ⟨res, mem', cells, hgives, h, Nat.le_refl _⟩
    split at hr
    · obtain ⟨-, hrep, hsize⟩ := hr
      have hlength : cells.length = (without modelo cells).length + 1 := by
        have hsize' := hrep.size
        rw [hsize, h.represents.size] at hsize'
        omega
      obtain ⟨hnodes, hrecords⟩ := hless (without modelo cells).length
        ((without modelo cells).length + k) (hlength ▸ h.nodes)
        (by rw [Nat.add_right_comm, ← hlength]; exact h.records)
      exact ⟨res, mem', _, hgives, ⟨hrep, hnodes, hrecords⟩, by omega⟩
    · obtain ⟨-, rfl⟩ := Prod.mk.inj hr
      exact ⟨res, mem', cells, hgives, h, Nat.le_refl _⟩

end Remove

section Order

variable {mem mem' : Mem} {cells : List Cell} {j k n : Nat}

theorem run_orderPass {swapped : Bool} (h : (orderPass n mem).run = some (.ok (mem', swapped)))
    (hk : Holds mem.nodes j) : Holds mem'.nodes j := by
  obtain ⟨⟨nodes, b⟩, hloop, h⟩ := run_bind_eq_ok.mp h
  obtain ⟨rfl, -⟩ := Prod.mk.inj (run_pure_eq_ok.mp h)
  refine loop_result (orderStep mem.records) (I := fun s => Holds s.1 j)
    (Q := fun r => ∀ nodes b, r = .ok (nodes, b) → Holds nodes j) ?_ ?_ hk hloop nodes b rfl
  · rintro ⟨nodes, current, b⟩ t hI ht
    cases current with
    | none => cases ht
    | some a =>
      rw [orderStep] at ht
      split at ht
      · cases ht
      split at ht
      · cases ht
      split at ht
      · cases ht
      · next s hs =>
        obtain rfl := Sum.inl.inj ht
        obtain ⟨next, -, hs⟩ := bind_eq_ok.mp hs
        obtain ⟨data, -, hs⟩ := bind_eq_ok.mp hs
        obtain ⟨nextData, -, hs⟩ := bind_eq_ok.mp hs
        split at hs
        · obtain ⟨nodes₁, hfirst, hs⟩ := bind_eq_ok.mp hs
          obtain ⟨nodes₂, hsecond, hs⟩ := bind_eq_ok.mp hs
          obtain rfl := Except.ok.inj hs
          exact holds_modify (holds_modify hI hfirst) hsecond
        · obtain rfl := Except.ok.inj hs
          exact hI
  · rintro ⟨nodes, current, b⟩ r hI hr nodes' b' rfl
    cases current with
    | none =>
      obtain ⟨rfl, -⟩ := Prod.mk.inj (Except.ok.inj (Sum.inr.inj hr))
      exact hI
    | some a =>
      rw [orderStep] at hr
      split at hr
      · cases hr
      split at hr
      · obtain ⟨rfl, -⟩ := Prod.mk.inj (Except.ok.inj (Sum.inr.inj hr))
        exact hI
      split at hr
      · cases hr
      · cases hr

theorem run_orderPasses {i : Nat} (h : (orderPasses n i mem).run = some (.ok mem'))
    (hk : Holds mem.nodes j) : Holds mem'.nodes j := by
  induction i generalizing mem with
  | zero => cases h
  | succ i ih =>
    obtain ⟨⟨mem₁, swapped⟩, hpass, h⟩ := run_bind_eq_ok.mp h
    have hk₁ := run_orderPass hpass hk
    cases swapped with
    | true => exact ih h hk₁
    | false =>
      obtain rfl := run_pure_eq_ok.mp h
      exact hk₁

theorem chain_order (h : Chain mem cells k) : ∃ mem' cells',
    Gives (fun n => (listOrderByYear n mem).run) (.ok (0, mem')) ∧ Chain mem' cells' k ∧
      cells'.length = cells.length := by
  obtain ⟨mem', cells', -, hgives, hfill, -⟩ := gives_order h.represents
  have hrun := hgives
  obtain ⟨n, hn⟩ := hrun
  obtain ⟨mem₁, hpasses, hend⟩ := run_bind_eq_ok.mp (hn n (Nat.le_refl n))
  obtain ⟨-, rfl⟩ := Prod.mk.inj (run_pure_eq_ok.mp hend)
  have hlength : cells'.length = cells.length := by
    have hnode := congrArg List.length hfill.node
    rwa [List.length_map, List.length_map] at hnode
  exact ⟨_, cells', hgives, ⟨hfill.represents, hlength ▸ run_orderPasses hpasses h.nodes,
    hlength ▸ hfill.records ▸ h.records⟩, hlength⟩

end Order

section Invoke

variable {mem mem' : Mem} {cells : List Cell} {k n : Nat} {rc : Int} {msg msg' : MessagePtr}

theorem run_sendCars {b : Building} {cars : Option (List (Option Nat))}
    (h : (ListSafety.sendCars b msg mem cars).run = some (.ok (rc, msg', mem'))) : mem' = mem := by
  cases cars with
  | none => exact (congrArg (·.2.2) (run_pure_eq_ok.mp h)).symm
  | some cars =>
    obtain ⟨⟨cars, n⟩, -, h⟩ := run_bind_eq_ok.mp h
    exact (congrArg (·.2.2) (run_pure_eq_ok.mp h)).symm

theorem run_invokeGet {b : Building}
    (h : (invokeGet n b msg mem).run = some (.ok (rc, msg', mem'))) : mem' = mem := by
  rw [invokeGet] at h
  split at h
  · obtain ⟨found, -, h⟩ := run_bind_eq_ok.mp h
    cases found with
    | none => exact (congrArg (·.2.2) (run_pure_eq_ok.mp h)).symm
    | some d =>
      obtain ⟨car, -, h⟩ := run_bind_eq_ok.mp h
      split at h
      · exact (congrArg (·.2.2) (run_pure_eq_ok.mp h)).symm
      · exact (congrArg (·.2.2) (run_pure_eq_ok.mp h)).symm
  · exact (congrArg (·.2.2) (run_pure_eq_ok.mp h)).symm

theorem run_invokeGetModels {b : Building}
    (h : (invokeGetModels n b msg mem).run = some (.ok (rc, msg', mem'))) : mem' = mem := by
  obtain ⟨models, -, h⟩ := run_bind_eq_ok.mp h
  dsimp only at h
  split at h
  · exact (congrArg (·.2.2) (run_pure_eq_ok.mp h)).symm
  · exact (congrArg (·.2.2) (run_pure_eq_ok.mp h)).symm

theorem chain_getListByYear (h : Chain mem cells k) {b : Building}
    (hgives : Gives (fun n => (invokeGetListByYear n b msg mem).run) (.ok (rc, msg', mem'))) :
    ∃ cells', Chain mem' cells' k ∧ cells'.length = cells.length := by
  by_cases hyear : msg.result ≠ -1
  · simp only [invokeGetListByYear, if_pos hyear] at hgives
    obtain ⟨n, hn⟩ := hgives
    obtain ⟨cars, -, hsend⟩ := run_bind_eq_ok.mp (hn n (Nat.le_refl n))
    obtain rfl := run_sendCars hsend
    exact ⟨cells, h, rfl⟩
  · simp only [invokeGetListByYear, if_neg hyear] at hgives
    obtain ⟨mem₁, cells', horder, hchain, hlength⟩ := chain_order h
    obtain ⟨n, hn⟩ := gives_of_bind horder hgives
    obtain ⟨cars, -, hsend⟩ := run_bind_eq_ok.mp (hn n (Nat.le_refl n))
    obtain rfl := run_sendCars hsend
    exact ⟨cells', hchain, hlength⟩

theorem chain_del (h : Chain mem cells k) (hmax : mem.size ≤ intMax)
    (hgives : Gives (fun n => (invokeDel n msg mem).run) (.ok (rc, msg', mem'))) :
    ∃ cells', Chain mem' cells' k ∧ cells'.length ≤ cells.length := by
  by_cases hone : msg.nModels ≠ 1
  · simp only [invokeDel, if_pos hone] at hgives
    obtain ⟨n, hn⟩ := hgives
    obtain rfl : mem = mem' := congrArg (·.2.2) (run_pure_eq_ok.mp (hn n (Nat.le_refl n)))
    exact ⟨cells, h, Nat.le_refl _⟩
  · simp only [invokeDel, if_neg hone] at hgives
    have hrun := hgives
    obtain ⟨n, hn⟩ := hrun
    obtain ⟨modelo, hmodelo, -⟩ := run_bind_eq_ok.mp (hn n (Nat.le_refl n))
    obtain ⟨res, mem₁, cells', hremove, hchain, hle⟩ := chain_remove h hmax modelo
    have hrest := gives_of_bind (gives_access (run_access_eq_ok.mp hmodelo)) hgives
    obtain ⟨m, hm⟩ := gives_of_bind hremove hrest
    obtain rfl : mem₁ = mem' := congrArg (·.2.2) (run_pure_eq_ok.mp (hm m (Nat.le_refl m)))
    exact ⟨cells', hchain, hle⟩

theorem chain_invoke (h : Chain mem cells k) {u : Unpacked}
    (hroom : mem.size + (Call.invoke (some u)).brings ≤ intMax) {v : Visit} {b : Building}
    (hgives : Gives (fun n => (invoke n v b u.inMemory mem).run) (.ok (rc, msg', mem'))) :
    ∃ cells', Chain mem' cells' k ∧ mem'.size ≤ intMax := by
  have hmax : mem.size ≤ intMax := by omega
  have hless : ∀ cells' : List Cell, cells'.length ≤ cells.length → Chain mem' cells' k →
      ∃ cells', Chain mem' cells' k ∧ mem'.size ≤ intMax := fun cells' hle hchain => by
    refine ⟨cells', hchain, ?_⟩
    rw [hchain.represents.size]
    rw [h.represents.size] at hmax
    omega
  have hsame : mem = mem' → ∃ cells', Chain mem' cells' k ∧ mem'.size ≤ intMax := fun hmem => by
    subst hmem
    exact ⟨cells, h, hmax⟩
  simp only [invoke] at hgives
  by_cases hsize : u.inMemory.opcode = opSize
  · simp only [if_pos hsize] at hgives
    obtain ⟨n, hn⟩ := hgives
    have hend := congrArg (·.2.2) (run_pure_eq_ok.mp (hn n (Nat.le_refl n)))
    refine hsame (Eq.trans ?_ hend)
    rw [invokeSize]
    split <;> rfl
  simp only [if_neg hsize] at hgives
  by_cases hadd : u.inMemory.opcode = opAdd
  · simp only [if_pos hadd] at hgives
    have hop : u.msg.opcode = opAdd := hadd
    rw [Call.brings, if_pos hop] at hroom
    obtain ⟨rc, msg, mem₁, cells', hrun, hchain, hle⟩ :=
      chain_invokeAdd h (by omega) v u.inMemory
    obtain ⟨-, hpair⟩ := Prod.mk.inj (Except.ok.inj (hrun.unique hgives))
    obtain ⟨-, rfl⟩ := Prod.mk.inj hpair
    refine ⟨cells', hchain, ?_⟩
    rw [hchain.represents.size]
    rw [h.represents.size] at hroom
    omega
  simp only [if_neg hadd] at hgives
  by_cases hget : u.inMemory.opcode = opGet
  · simp only [if_pos hget] at hgives
    obtain ⟨n, hn⟩ := hgives
    exact hsame (run_invokeGet (hn n (Nat.le_refl n))).symm
  simp only [if_neg hget] at hgives
  by_cases hyear : u.inMemory.opcode = opGetListByYear
  · simp only [if_pos hyear] at hgives
    obtain ⟨cells', hchain, hlength⟩ := chain_getListByYear h hgives
    exact hless cells' hlength.le hchain
  simp only [if_neg hyear] at hgives
  by_cases hmodels : u.inMemory.opcode = opGetModels
  · simp only [if_pos hmodels] at hgives
    obtain ⟨n, hn⟩ := hgives
    exact hsame (run_invokeGetModels (hn n (Nat.le_refl n))).symm
  simp only [if_neg hmodels] at hgives
  by_cases hdel : u.inMemory.opcode = opDel
  · simp only [if_pos hdel] at hgives
    obtain ⟨cells', hchain, hle⟩ := chain_del h hmax hgives
    exact hless cells' hle hchain
  simp only [if_neg hdel] at hgives
  obtain ⟨n, hn⟩ := hgives
  exact hsame (congrArg (·.2.2) (run_pure_eq_ok.mp (hn n (Nat.le_refl n))))

end Invoke

section Destroy

theorem ends_destroy {nodes : Heap CarT} {records : Heap DataT} {p : Option Nat}
    {cells : List Cell} {k : Nat} (hs : Seg nodes p (cells.map Cell.entry) none)
    (hr : ∀ c ∈ cells, records c.data = some c.car) (hd : (cells.map Cell.data).Nodup)
    (hnodes : Holds nodes cells.length) (hrecords : Holds records (cells.length + k)) :
    ∃ nodes' records', Ends destroyStep (nodes, records, p) (.ok (0, nodes', records')) ∧
      Holds nodes' 0 ∧ Holds records' k := by
  induction cells generalizing nodes records p with
  | nil =>
    obtain rfl : p = none := hs
    rw [List.length_nil, Nat.zero_add] at hrecords
    exact ⟨nodes, records, ends_done _ rfl, hnodes, hrecords⟩
  | cons c cells ih =>
    have hall := hs
    obtain ⟨rfl, next, hc, -⟩ := hs
    have hcar := hr c List.mem_cons_self
    rw [List.map_cons, List.nodup_cons] at hd
    rw [List.length_cons] at hnodes
    rw [List.length_cons, Nat.add_right_comm] at hrecords
    obtain ⟨nodes', records', hends, hempty, hleft⟩ := ih (hall.tail hc)
      (fun e he => by
        have hne : e.data ≠ c.data := fun h => hd.1 (h ▸ List.mem_map_of_mem he)
        exact (Function.update_of_ne hne _ _).trans (hr e (List.mem_cons_of_mem c he)))
      hd.2 (holds_erase hnodes hc) (holds_erase hrecords hcar)
    refine ⟨nodes', records', ends_next _ ?_ hends, hempty, hleft⟩
    simp only [destroyStep, load_some hc, dataDestroy, reduceCtorEq, if_false,
      free_some hcar, free_some hc, bind, Except.bind, Except.map, pure, Except.pure]

theorem chain_listDestroy {mem : Mem} {cells : List Cell} {k : Nat} (h : Chain mem cells k) :
    ∃ records, Holds records k ∧
      Gives (fun n => (listDestroy n mem).run) (.ok (0, fun _ => none, records)) := by
  obtain ⟨nodes, records, hends, hempty, hleft⟩ := ends_destroy h.represents.chain
    h.represents.records h.represents.distinct h.nodes h.records
  obtain rfl : nodes = fun _ => none := funext hempty.eq_none
  exact ⟨records, hleft, gives_of_ends _ hends⟩

end Destroy

section Reached

variable {s t : State} {e : Event}

theorem chain_exec {cells : List Cell} (h : Chain s.mem cells s.copied)
    (hroom : s.mem.size + e.call.brings ≤ intMax)
    (ht : Gives (fun n => (exec n s e).run) (.ok t)) :
    ∃ cells', Chain t.mem cells' t.copied ∧ t.mem.size ≤ intMax := by
  have hmax : s.mem.size ≤ intMax := by omega
  cases he : e.call with
  | invoke msg =>
    rw [he] at hroom
    simp only [exec, he] at ht
    cases msg with
    | none =>
      obtain rfl := Except.ok.inj (ht.unique (gives_some _))
      exact ⟨cells, h, hmax⟩
    | some u =>
      have hinj : Function.Injective fun r : Int × MessagePtr × Mem =>
          State.mk r.2.2 (some (r.1, r.2.1)) s.copied := by
        rintro ⟨rc, msg, mem⟩ ⟨rc', msg', mem'⟩ hr
        obtain ⟨rfl, hreply, -⟩ := State.mk.inj hr
        obtain ⟨rfl, rfl⟩ := Prod.mk.inj (Option.some.inj hreply)
        rfl
      obtain ⟨⟨rc, msg, mem⟩, hgives, rfl⟩ := gives_of_map hinj ht
      exact chain_invoke h hroom hgives
  | getListAdd res =>
    rw [he] at hroom
    simp only [exec, he] at ht
    obtain ⟨rc, mem', cells', j, hgives, hlength, hle, hchain⟩ :=
      chain_getListAdd h e.visits res hroom
    have hend := gives_of_bind hgives ht
    obtain rfl := Except.ok.inj (hend.unique (gives_some _))
    have hsize := hchain.represents.size
    have hsize₀ := h.represents.size
    have hj : (mem'.size - s.mem.size).toNat = j := by omega
    have hmax' : mem'.size ≤ intMax := by omega
    refine ⟨cells', ?_, hmax'⟩
    rw [hj]
    exact hchain

theorem chain_reached (h : Reached s) :
    ∃ cells, Chain s.mem cells s.copied ∧ s.mem.size ≤ intMax := by
  induction h with
  | start => exact ⟨[], chain_create, by decide⟩
  | call hs hroom ht ih =>
    obtain ⟨cells, hchain, -⟩ := ih
    exact chain_exec hchain hroom ht

/-- In every state that calls lead to, `list_destroy` frees every node and
every car, except for one car per car that `rlist_get_list_add` has put in. -/
theorem cars_accounted (h : Reached s) : Accounted s := by
  obtain ⟨cells, hchain, -⟩ := chain_reached h
  have hsize : s.mem.size.toNat = cells.length := by
    rw [hchain.represents.size]
    rfl
  have hdestroyed := chain_listDestroy hchain
  refine ⟨hsize ▸ hchain.nodes, hsize ▸ hchain.records, hdestroyed, fun hzero => ?_⟩
  obtain ⟨records, hleft, hgives⟩ := hdestroyed
  rw [hzero] at hleft
  obtain rfl : records = fun _ => none := funext hleft.eq_none
  exact hgives

end Reached

/-- A reply with one car, for which `malloc` finds the first free places. -/
def fetch : Event :=
  ⟨.getListAdd (some ⟨{ MessageT.init with
      opcode := opGetListByYear + 1, cType := ctList, nCars := 1,
      cars := [Skeleton.dataToProtobuf (car 2020)] }, rfl, rfl,
      by simp [MessageT.init, Skeleton.dataToProtobuf]⟩),
    fun _ => ⟨2026, some 0, ⟨2026, some 0, some 1⟩⟩, ⟨true, true, fun _ => true⟩⟩

def request : Event :=
  ⟨.invoke (some ⟨{ MessageT.init with
      opcode := opAdd, cType := ctData, data := some (Skeleton.dataToProtobuf (car 2021)) },
      rfl, rfl, by simp [MessageT.init, Skeleton.dataToProtobuf]⟩),
    fun _ => ⟨2026, some 2, ⟨2026, some 1, some 3⟩⟩, ⟨true, true, fun _ => true⟩⟩

def fetched : Mem :=
  ⟨1, some 0, store (fun _ => none) 0 ⟨some 1, none⟩,
    store (store (fun _ => none) 0 (car 2020)) 1 (car 2020)⟩

def requested : Mem :=
  ⟨2, some 0, store (store (store (fun _ => none) 0 ⟨some 1, none⟩) 1 ⟨some 3, none⟩) 0
      ⟨some 1, some 1⟩,
    Function.update (store (store fetched.records 2 (car 2021)) 3 (car 2021)) 2 none⟩

theorem cars_accounted_fetch : ∃ t : State, t.mem = requested ∧ t.copied = 1 ∧ Reached t ∧
    Accounted t := by
  have hfetch : Gives (fun n => (exec n .start fetch).run) (.ok ⟨fetched, none, 1⟩) :=
    ⟨0, fun _ _ => rfl⟩
  have hrequest : Gives (fun n => (exec n ⟨fetched, none, 1⟩ request).run)
      (.ok ⟨requested, some (0, ⟨opAdd + 1, ctNone, some (Skeleton.dataToProtobuf (car 2021)), 0, 0,
        none, 0, none⟩), 1⟩) := by
    refine ⟨1, fun m hm => ?_⟩
    obtain ⟨n, rfl⟩ := Nat.exists_eq_add_of_le' hm
    rfl
  have hreached : Reached ⟨requested, some (0, ⟨opAdd + 1, ctNone,
      some (Skeleton.dataToProtobuf (car 2021)), 0, 0, none, 0, none⟩), 1⟩ :=
    .call (.call .start (by decide) hfetch) (by decide) hrequest
  exact ⟨_, rfl, rfl, hreached, cars_accounted hreached⟩

end ListServer.CarLifetime
