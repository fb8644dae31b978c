import ListServer.CarList
import ListServer.Message
import ListServer.Lib.Memory
import Mathlib.Data.List.Find

namespace ListServer.MemoryList

open Lib Lib.CTypes Lib.Pointer Lib.Loop Lib.Memory CarData Message

/-- A node of the list. Its `data` may be NULL. -/
abbrev CarT := Node (Option Nat)

/-- The list as it lies in memory: the fields of `struct list_t`, the nodes and
the cars that the nodes point to. -/
structure Mem where
  size : Int
  head : Option Nat
  nodes : Heap CarT
  records : Heap DataT

def listCreate : Mem := ⟨0, none, fun _ => none, fun _ => none⟩

/-- What one call of `list_add` meets: the year, and the places that `malloc`
gives for the node and for the copy of the car. -/
structure Addition where
  t : Int
  node : Option Nat
  data : Option Nat
deriving DecidableEq

/-- The copy that `data_dup` makes of a car. -/
def dataDup (w : Addition) (mem : Mem) (car : DataT) : Option (Nat × Heap DataT) :=
  (CarData.dataDup w.t car).bind fun data =>
    (malloc mem.records w.data).map fun d => (d, store mem.records d data)

def link (fuel : Nat) (mem : Mem) (new : Nat) : Prog Mem :=
  if mem.head = none then return { mem with head := some new }
  else do
    let current ← ExceptT.mk (loop (lastStep mem.nodes) fuel mem.head)
    let nodes ← access (modify mem.nodes current fun node => { node with next := some new })
    return { mem with nodes := nodes }

def listAdd (fuel : Nat) (w : Addition) (mem : Mem) (car : Option DataT) : Prog (Int × Mem) :=
  match car with
  | none => return (-1, mem)
  | some car =>
    match malloc mem.nodes w.node with
    | none => return (-1, mem)
    | some new =>
      match dataDup w mem car with
      | none => return (-1, mem)
      | some (d, records) => do
        let nodes := store mem.nodes new ⟨some d, none⟩
        let mem ← link fuel { mem with nodes := nodes, records := records } new
        return (0, { mem with size := toInt (mem.size + 1) })

def unlink (mem : Mem) (prev current : Option Nat) (node : CarT) : Except Fault (Int × Mem) := do
  let mem ← (if prev = none then .ok { mem with head := node.next }
    else (modify mem.nodes prev fun n => { n with next := node.next }).map fun nodes =>
      { mem with nodes := nodes } : Except Fault Mem)
  let records ← free mem.records node.data
  let nodes ← free mem.nodes current
  return (0, ⟨toInt (mem.size - 1), mem.head, nodes, records⟩)

def removeStep (mem : Mem) (modelo : CString) : Option Nat × Option Nat →
    (Option Nat × Option Nat) ⊕ Except Fault (Int × Mem)
  | (_, none) => .inr (.ok (1, mem))
  | (prev, some a) =>
    match (load mem.nodes (some a)).bind fun node =>
        (load mem.records node.data).map fun data => (node, data) with
    | .error e => .inr (.error e)
    | .ok (node, data) =>
      if data.modelo = modelo then .inr (unlink mem prev (some a) node)
      else .inl (some a, node.next)

def listRemoveByModel (fuel : Nat) (mem : Mem) (modelo : Option CString) : Prog (Int × Mem) :=
  match modelo with
  | none => return (-1, mem)
  | some m => ExceptT.mk (loop (removeStep mem m) fuel (none, mem.head))

/-- The round of the inner loop of `list_order_by_year` at `current`: the cars
of two neighbours are compared, and swapped by their pointers. -/
def orderStep (records : Heap DataT) : Heap CarT × Option Nat × Bool →
    (Heap CarT × Option Nat × Bool) ⊕ Except Fault (Heap CarT × Bool)
  | (nodes, none, swapped) => .inr (.ok (nodes, swapped))
  | (nodes, some a, swapped) =>
    match load nodes (some a) with
    | .error e => .inr (.error e)
    | .ok node =>
      if node.next = none then .inr (.ok (nodes, swapped))
      else
        match (do
          let next ← load nodes node.next
          let data ← load records node.data
          let nextData ← load records next.data
          if data.ano > nextData.ano then
            let temp := node.data
            let nodes ← modify nodes (some a) fun n => { n with data := next.data }
            let nodes ← modify nodes node.next fun n => { n with data := temp }
            pure (nodes, node.next, true)
          else pure (nodes, node.next, swapped) : Except Fault (Heap CarT × Option Nat × Bool)) with
        | .error e => .inr (.error e)
        | .ok s => .inl s

def orderPass (fuel : Nat) (mem : Mem) : Prog (Mem × Bool) := do
  let (nodes, swapped) ← ExceptT.mk (loop (orderStep mem.records) fuel (mem.nodes, mem.head, false))
  return ({ mem with nodes := nodes }, swapped)

/-- `do pass while (swapped)`, which does not end if the given number of passes
is not enough. -/
def orderPasses (fuel : Nat) : Nat → Mem → Prog Mem
  | 0, _ => ExceptT.mk none
  | k + 1, mem => do
    let (mem, swapped) ← orderPass fuel mem
    if swapped then orderPasses fuel k mem else return mem

def listOrderByYear (fuel : Nat) (mem : Mem) : Prog (Int × Mem) := do
  let mem ← orderPasses fuel fuel mem
  return (0, mem)

/-- What the building of an array meets: whether `malloc` gives the array, the
array of protobuf records made from it, and what is made of each element. -/
structure Building where
  array : Bool
  converted : Bool
  element : Nat → Bool

/-- The places of an array made with `malloc((size + 1) * sizeof(void *))`. -/
def capacity (size : Int) : Nat := toSizeT (toInt (size + 1)) * 8 % 2 ^ 64 / 8

def hasYear (records : Heap DataT) (ano : Int) (data : Option Nat) : Except Fault Bool :=
  (load records data).map fun data => decide (data.ano = ano)

def listGetByMarca (fuel : Nat) (mem : Mem) (marca : Int) : Prog (Option Nat) := do
  let found ← ExceptT.mk (loop (findStep mem.nodes fun data =>
    (load mem.records data).map fun data => decide (data.marca = marca)) fuel mem.head)
  return found.join

def listGetByYear (fuel : Nat) (b : Building) (mem : Mem) (ano : Int) :
    Prog (Option (List (Option Nat))) := do
  let count ← ExceptT.mk (loop (countStep mem.nodes (hasYear mem.records ano)) fuel (mem.head, 0))
  if !b.array then return none
  else ExceptT.mk (loop (collectStep mem.nodes (capacity count) none
    (fun data => if data = none then .ok false else hasYear mem.records ano data)
    fun _ data => .ok (some data)) fuel (mem.head, []))

def listGetAll (fuel : Nat) (b : Building) (mem : Mem) : Prog (Option (List (Option Nat))) :=
  if !b.array then return none
  else ExceptT.mk (loop (collectStep mem.nodes (capacity mem.size) none (fun _ => .ok true)
    fun _ data => .ok (some data)) fuel (mem.head, []))

/-- If a copy of a model fails, there is no array. -/
def listGetModelList (fuel : Nat) (b : Building) (mem : Mem) :
    Prog (Option (List (Option CString))) :=
  if !b.array then return none
  else ExceptT.mk (loop (collectStep mem.nodes (capacity mem.size) none (fun _ => .ok true)
    fun i data => (load mem.records data).map fun data =>
      if b.element i then some (some data.modelo) else none) fuel (mem.head, []))

def listSize (mem : Mem) : Int := mem.size

/-- A node with its address, the address of its car, and the car. -/
structure Cell where
  node : Nat
  data : Nat
  car : DataT
deriving DecidableEq

def Cell.entry (c : Cell) : Nat × Option Nat := (c.node, some c.data)

def Cell.payload (c : Cell) : Nat × DataT := (c.data, c.car)

def year (p : Nat × DataT) : Int := p.2.ano

/-- The memory holds a list of these nodes: they are linked from the head to
NULL, each has a car of its own, and the counter is their number. -/
structure Represents (mem : Mem) (cells : List Cell) : Prop where
  chain : Seg mem.nodes mem.head (cells.map Cell.entry) none
  records : ∀ c ∈ cells, mem.records c.data = some c.car
  distinct : (cells.map Cell.data).Nodup
  size : mem.size = cells.length

theorem represents_create : Represents listCreate [] := ⟨rfl, nofun, List.nodup_nil, rfl⟩

variable {mem : Mem} {cells : List Cell}

theorem map_entry_fst (cells : List Cell) :
    (cells.map Cell.entry).map Prod.fst = cells.map Cell.node := List.map_map ..

theorem Represents.nodup (h : Represents mem cells) : (cells.map Cell.node).Nodup := by
  have hnodup := h.chain.nodup
  rwa [map_entry_fst] at hnodup

section Order

/-- The inner loop on the cells from one on. -/
def carryCells : Cell → List Cell → List Cell
  | c, [] => [c]
  | c, d :: cells =>
    if d.car.ano < c.car.ano then ⟨c.node, d.data, d.car⟩ :: carryCells ⟨d.node, c.data, c.car⟩ cells
    else c :: carryCells d cells

theorem carryCells_node (c : Cell) (cells : List Cell) :
    (carryCells c cells).map Cell.node = (c :: cells).map Cell.node := by
  induction cells generalizing c with
  | nil => rfl
  | cons d cells ih =>
    rw [carryCells]
    split
    · rw [List.map_cons, ih]
      rfl
    · rw [List.map_cons, ih]
      rfl

theorem carryCells_payload (c : Cell) (cells : List Cell) :
    (carryCells c cells).map Cell.payload =
      (Bubble.carry year c.payload (cells.map Cell.payload)).1 := by
  induction cells generalizing c with
  | nil => rfl
  | cons d cells ih =>
    rw [carryCells, List.map_cons, Bubble.carry]
    by_cases h : d.car.ano < c.car.ano
    · have hyear : year d.payload < year c.payload := h
      rw [if_pos h, if_pos hyear, List.map_cons, ih]
      rfl
    · have hyear : ¬ year d.payload < year c.payload := h
      rw [if_neg h, if_neg hyear, List.map_cons, ih]

theorem seg_swap {nodes : Heap CarT} {c d : Cell} {cells : List Cell}
    (hs : Seg nodes (some c.node) ((c :: d :: cells).map Cell.entry) none) :
    ∃ next nodes', nodes c.node = some ⟨some c.data, some d.node⟩ ∧
      nodes d.node = some ⟨some d.data, next⟩ ∧
      store (store nodes c.node ⟨some d.data, some d.node⟩) d.node ⟨some c.data, next⟩ = nodes' ∧
      store nodes c.node ⟨some d.data, some d.node⟩ d.node = some ⟨some d.data, next⟩ ∧
      Seg nodes' (some d.node) ((⟨d.node, c.data, c.car⟩ :: cells).map Cell.entry) none ∧
      nodes' c.node = some ⟨some d.data, some d.node⟩ ∧
      ∀ a, a ≠ c.node → a ≠ d.node → nodes' a = nodes a := by
  have hnodup := hs.nodup
  rw [map_entry_fst, List.map_cons, List.nodup_cons, List.map_cons, List.nodup_cons] at hnodup
  obtain ⟨hcnot, hdnot, -⟩ := hnodup
  obtain ⟨-, next, hc, rfl, next', hd, hrest⟩ := hs
  have hdc : d.node ≠ c.node := fun he => hcnot (by rw [← he]; exact List.mem_cons_self)
  refine ⟨next', _, hc, hd, rfl, (store_of_ne hdc _).trans hd, ⟨rfl, next', store_self _ _ _, ?_⟩,
    (store_of_ne hdc.symm _).trans (store_self _ _ _), fun a hac had => ?_⟩
  · refine hrest.congr fun e he => ?_
    have hmem := List.mem_map_of_mem (f := Prod.fst) he
    rw [map_entry_fst] at hmem
    have hed : e.1 ≠ d.node := fun he => hdnot (he ▸ hmem)
    have hec : e.1 ≠ c.node := fun he => hcnot (he ▸ List.mem_cons_of_mem _ hmem)
    rw [store_of_ne hed, store_of_ne hec]
  · rw [store_of_ne had, store_of_ne hac]

/-- One pass from a node on carries the later of two neighbouring cars to the
right and touches no other node. -/
theorem ends_order {nodes : Heap CarT} {records : Heap DataT} {c : Cell} {cells : List Cell}
    (hs : Seg nodes (some c.node) ((c :: cells).map Cell.entry) none)
    (hr : ∀ d ∈ c :: cells, records d.data = some d.car) (swapped : Bool) :
    ∃ nodes', Ends (orderStep records) (nodes, some c.node, swapped)
        (.ok (nodes', swapped || (Bubble.carry year c.payload (cells.map Cell.payload)).2)) ∧
      Seg nodes' (some c.node) ((carryCells c cells).map Cell.entry) none ∧
      ∀ a ∉ (c :: cells).map Cell.node, nodes' a = nodes a := by
  induction cells generalizing nodes c swapped with
  | nil =>
    obtain ⟨-, next, hc, rfl⟩ := hs
    refine ⟨nodes, ends_done _ ?_, ⟨rfl, none, hc, rfl⟩, fun _ _ => rfl⟩
    rw [orderStep, load_some hc]
    simp [Bubble.carry]
  | cons d cells ih =>
    have hnodup := hs.nodup
    rw [map_entry_fst, List.map_cons, List.nodup_cons] at hnodup
    obtain ⟨next, nodes₁, hc, hd, hnodes, hd₁, hseg, hc₁, hframe₁⟩ := seg_swap hs
    have hrc := hr c List.mem_cons_self
    have hrd := hr d (List.mem_cons_of_mem c List.mem_cons_self)
    have hrr : ∀ e ∈ d :: cells, records e.data = some e.car := fun e he =>
      hr e (List.mem_cons_of_mem c he)
    by_cases hyear : d.car.ano < c.car.ano
    · have hlt : year d.payload < year c.payload := hyear
      have hstep : orderStep records (nodes, some c.node, swapped) =
          .inl (nodes₁, some d.node, true) := by
        simp only [orderStep, load_some hc, reduceCtorEq, if_false, load_some hd, load_some hrc,
          load_some hrd, bind, Except.bind, gt_iff_lt, hyear, if_true, modify_some hc,
          modify_some hd₁, pure, Except.pure, hnodes]
      have hre : ∀ e ∈ ⟨d.node, c.data, c.car⟩ :: cells, records e.data = some e.car := fun e he =>
        (List.mem_cons.mp he).elim (fun he => he ▸ hrc) fun he => hrr e (List.mem_cons_of_mem d he)
      obtain ⟨nodes', hends, hseg', hframe⟩ := ih hseg hre true
      refine ⟨nodes', ends_next _ hstep ?_, ?_, fun a ha => ?_⟩
      · rw [List.map_cons, Bubble.carry, if_pos hlt, Bool.or_true]
        exact hends
      · rw [carryCells, if_pos hyear, List.map_cons]
        exact ⟨rfl, some d.node, (hframe c.node hnodup.1).trans hc₁, hseg'⟩
      · rw [List.map_cons, List.mem_cons, not_or] at ha
        have had : a ≠ d.node := fun he => ha.2 (by rw [he]; exact List.mem_cons_self)
        rw [hframe a ha.2, hframe₁ a ha.1 had]
    · have hlt : ¬ year d.payload < year c.payload := hyear
      have hstep : orderStep records (nodes, some c.node, swapped) =
          .inl (nodes, some d.node, swapped) := by
        simp only [orderStep, load_some hc, reduceCtorEq, if_false, load_some hd, load_some hrc,
          load_some hrd, bind, Except.bind, gt_iff_lt, hyear, pure, Except.pure]
      have htail : Seg nodes (some d.node) ((d :: cells).map Cell.entry) none := by
        obtain ⟨-, next', hc', hrest⟩ := hs
        rw [hc] at hc'
        obtain ⟨-, rfl⟩ := Node.mk.inj (Option.some.inj hc')
        exact hrest
      obtain ⟨nodes', hends, hseg', hframe⟩ := ih htail hrr swapped
      refine ⟨nodes', ends_next _ hstep ?_, ?_, fun a ha => ?_⟩
      · rw [List.map_cons, Bubble.carry, if_neg hlt]
        exact hends
      · rw [carryCells, if_neg hyear, List.map_cons]
        exact ⟨rfl, some d.node, (hframe c.node hnodup.1).trans hc, hseg'⟩
      · rw [List.map_cons, List.mem_cons, not_or] at ha
        exact hframe a ha.2

/-- The second list has the nodes of the first, with other cars in them. -/
structure Refilled (mem mem' : Mem) (cells cells' : List Cell) : Prop where
  represents : Represents mem' cells'
  node : cells'.map Cell.node = cells.map Cell.node
  head : mem'.head = mem.head
  records : mem'.records = mem.records
  size : mem'.size = mem.size

theorem Refilled.trans {mem' mem'' : Mem} {cells' cells'' : List Cell}
    (h : Refilled mem mem' cells cells') (h' : Refilled mem' mem'' cells' cells'') :
    Refilled mem mem'' cells cells'' :=
  ⟨h'.represents, h'.node.trans h.node, h'.head.trans h.head, h'.records.trans h.records,
    h'.size.trans h.size⟩

theorem refilled_of_perm {nodes : Heap CarT} {cells' : List Cell} (h : Represents mem cells)
    (hs : Seg nodes mem.head (cells'.map Cell.entry) none)
    (hnode : cells'.map Cell.node = cells.map Cell.node)
    (hperm : (cells'.map Cell.payload).Perm (cells.map Cell.payload)) :
    Refilled mem { mem with nodes := nodes } cells cells' := by
  have hdata : ∀ l : List Cell, (l.map Cell.payload).map Prod.fst = l.map Cell.data :=
    fun l => List.map_map ..
  have hlen : cells'.length = cells.length := by
    simpa only [List.length_map] using congrArg List.length hnode
  refine ⟨⟨hs, fun c hc => ?_, ?_, hlen ▸ h.size⟩, hnode, rfl, rfl, rfl⟩
  · obtain ⟨d, hd, hdc⟩ := List.mem_map.mp (hperm.mem_iff.mp (List.mem_map_of_mem hc))
    obtain ⟨hfst, hsnd⟩ := Prod.mk.inj hdc
    have hrec := h.records d hd
    rwa [hfst, hsnd] at hrec
  · have hperm' := hperm.map Prod.fst
    rw [hdata, hdata] at hperm'
    exact hperm'.nodup_iff.mpr h.distinct

theorem gives_pass (h : Represents mem cells) : ∃ mem' cells',
    Gives (fun n => (orderPass n mem).run)
        (.ok (mem', (Bubble.pass year (cells.map Cell.payload)).2)) ∧
      Refilled mem mem' cells cells' ∧
      cells'.map Cell.payload = (Bubble.pass year (cells.map Cell.payload)).1 := by
  cases cells with
  | nil =>
    have hhead : mem.head = none := h.chain
    have hends : Ends (orderStep mem.records) (mem.nodes, mem.head, false)
        (.ok (mem.nodes, false)) := ends_done _ (by rw [hhead]; rfl)
    exact ⟨mem, [], gives_bind (gives_of_ends _ hends) (gives_some _),
      ⟨h, rfl, rfl, rfl, rfl⟩, rfl⟩
  | cons c cells =>
    have hhead : mem.head = some c.node := h.chain.1
    have hchain := h.chain
    rw [hhead] at hchain
    obtain ⟨nodes, hends, hseg, -⟩ := ends_order hchain h.records false
    rw [← hhead, Bool.false_or] at hends
    have hpayload := carryCells_payload c cells
    have hperm : ((carryCells c cells).map Cell.payload).Perm ((c :: cells).map Cell.payload) := by
      rw [hpayload]
      exact Bubble.carry_perm year _ _
    exact ⟨{ mem with nodes := nodes }, carryCells c cells,
      gives_bind (gives_of_ends _ hends) (gives_some _),
      refilled_of_perm h (hhead ▸ hseg) (carryCells_node c cells) hperm, hpayload⟩

/-- As many passes as there are elements to settle are enough. -/
theorem gives_passes {j k : Nat} (h : Represents mem cells)
    (hj : Bubble.Settled year j (cells.map Cell.payload)) (hjk : j ≤ k) (hk : 1 ≤ k) :
    ∃ mem' cells', Gives (fun n => (orderPasses n k mem).run) (.ok mem') ∧
      Refilled mem mem' cells cells' ∧
      cells'.map Cell.payload = Bubble.loop year k (cells.map Cell.payload) := by
  induction k generalizing j mem cells with
  | zero => omega
  | succ k ih =>
    obtain ⟨mem₁, cells₁, hpass, hfill, hpayload⟩ := gives_pass h
    rw [Bubble.loop]
    cases hswap : (Bubble.pass year (cells.map Cell.payload)).2 with
    | false =>
      rw [hswap] at hpass
      exact ⟨mem₁, cells₁, gives_bind hpass (gives_some _), hfill, hpayload⟩
    | true =>
      rw [hswap] at hpass
      have htwo := Bubble.two_le_of_swap year hj hswap
      obtain ⟨i, rfl⟩ : ∃ i, j = i + 1 := ⟨j - 1, by omega⟩
      have hset := Bubble.settled_pass year hj
      rw [← hpayload] at hset
      obtain ⟨mem₂, cells₂, hpasses, hfill', hpayload'⟩ :=
        ih hfill.represents hset (by omega) (by omega)
      refine ⟨mem₂, cells₂, gives_bind hpass hpasses, hfill.trans hfill', ?_⟩
      rw [hpayload', hpayload]
      rfl

theorem orderPasses_mono {n k k' : Nat} (hk : k ≤ k') {r : Except Fault Mem}
    (hr : (orderPasses n k mem).run = some r) : (orderPasses n k' mem).run = some r := by
  induction k generalizing k' mem with
  | zero => cases hr
  | succ k ih =>
    obtain ⟨i, rfl⟩ : ∃ i, k' = i + 1 := ⟨k' - 1, by omega⟩
    rw [orderPasses, ExceptT.run_bind] at hr ⊢
    obtain ⟨q, hq, hrest⟩ := Option.bind_eq_some_iff.mp hr
    refine Option.bind_eq_some_iff.mpr ⟨q, hq, ?_⟩
    cases q with
    | error e => exact hrest
    | ok q =>
      obtain ⟨mem₁, swapped⟩ := q
      cases swapped with
      | false => exact hrest
      | true => exact ih (by omega) hrest

theorem gives_order (h : Represents mem cells) : ∃ mem' cells',
    Gives (fun n => (orderPasses n (max cells.length 1) mem).run) (.ok mem') ∧
      Gives (fun n => (listOrderByYear n mem).run) (.ok (0, mem')) ∧
      Refilled mem mem' cells cells' ∧
      cells'.map Cell.payload = Bubble.sort year (cells.map Cell.payload) := by
  have hset := Bubble.settled_length year (cells.map Cell.payload)
  rw [List.length_map] at hset
  obtain ⟨mem', cells', hgives, hfill, hpayload⟩ :=
    gives_passes h hset (le_max_left _ 1) (le_max_right _ _)
  have hfuel : Gives (fun n => (orderPasses n n mem).run) (.ok mem') := by
    obtain ⟨n, hn⟩ := hgives
    exact ⟨max n (max cells.length 1), fun m hm => orderPasses_mono (by omega) (hn m (by omega))⟩
  refine ⟨mem', cells', hgives, gives_bind hfuel (gives_some _), hfill, ?_⟩
  rw [hpayload, Bubble.sort, List.length_map]

/-- `list_order_by_year` ends, with at most as many passes as the list has
nodes, or one. The nodes stay, and their cars are in the stable ascending order
of their years. -/
theorem order_stable (h : Represents mem cells) : ∃ mem' cells',
    Gives (fun n => (orderPasses n (max cells.length 1) mem).run) (.ok mem') ∧
      Gives (fun n => (listOrderByYear n mem).run) (.ok (0, mem')) ∧
      Refilled mem mem' cells cells' ∧
      Bubble.IsStableSort year (cells.map Cell.payload) (cells'.map Cell.payload) := by
  obtain ⟨mem', cells', hpasses, horder, hfill, hpayload⟩ := gives_order h
  exact ⟨mem', cells', hpasses, horder, hfill, hpayload ▸ Bubble.sort_isStableSort year _⟩

def car (ano : Int) : DataT := ⟨ano, Single.zero, marcaToyota, ofBytes [65], combustivelGasolina⟩

def twoCells : List Cell := [⟨0, 0, car 2020⟩, ⟨1, 1, car 2019⟩]

def twoCars : Mem :=
  ⟨2, some 0, store (store (fun _ => none) 0 ⟨some 0, some 1⟩) 1 ⟨some 1, none⟩,
    store (store (fun _ => none) 0 (car 2020)) 1 (car 2019)⟩

theorem represents_twoCars : Represents twoCars twoCells := by
  refine ⟨⟨rfl, some 1, rfl, rfl, none, rfl, rfl⟩, fun c hc => ?_, by decide, rfl⟩
  obtain rfl | hc := List.mem_cons.mp hc
  · rfl
  · obtain rfl := List.mem_singleton.mp hc
    rfl

theorem order_twoCars : ∃ mem' cells',
    Gives (fun n => (orderPasses n 2 twoCars).run) (.ok mem') ∧
      Gives (fun n => (listOrderByYear n twoCars).run) (.ok (0, mem')) ∧
      Refilled twoCars mem' twoCells cells' ∧
      Bubble.IsStableSort year (twoCells.map Cell.payload) (cells'.map Cell.payload) :=
  order_stable represents_twoCars

def view (mem : Mem) (cells : List Cell) : CarList.ListT := ⟨mem.size, cells.map Cell.car⟩

theorem view_order {mem' : Mem} {cells' : List Cell} (hfill : Refilled mem mem' cells cells')
    (hpayload : cells'.map Cell.payload = Bubble.sort year (cells.map Cell.payload)) :
    view mem' cells' = CarList.listOrderByYear (view mem cells) := by
  have hcar : ∀ l : List Cell, (l.map Cell.payload).map Prod.snd = l.map Cell.car :=
    fun l => List.map_map ..
  have hmap := congrArg (List.map Prod.snd) hpayload
  rw [hcar] at hmap
  have hsort := Bubble.sort_map DataT.ano Prod.snd (cells.map Cell.payload)
  rw [hcar] at hsort
  rw [view, hmap, hfill.size]
  exact congrArg (CarList.ListT.mk mem.size) hsort

end Order

section Add

variable {w : Addition} {car : Option DataT} {c : Cell}

/-- The node that an addition makes, if `malloc` and the validation allow it. -/
def placed (w : Addition) (mem : Mem) (car : Option DataT) : Option Cell :=
  car.bind fun car => (malloc mem.nodes w.node).bind fun new =>
    (CarData.dataDup w.t car).bind fun data =>
      (malloc mem.records w.data).map fun d => ⟨new, d, data⟩

theorem placed_eq_some : placed w mem car = some c ↔
    car = some c.car ∧ Valid w.t c.car ∧ malloc mem.nodes w.node = some c.node ∧
      malloc mem.records w.data = some c.data := by
  simp only [placed, Option.bind_eq_some_iff, Option.map_eq_some_iff, dataDup_eq_some]
  constructor
  · rintro ⟨car, rfl, new, hnew, data, ⟨rfl, hv⟩, d, hd, rfl⟩
    exact ⟨rfl, hv, hnew, hd⟩
  · rintro ⟨rfl, hv, hnew, hd⟩
    exact ⟨c.car, rfl, c.node, hnew, c.car, ⟨rfl, hv⟩, c.data, hd, rfl⟩

theorem gives_listAdd_none (h : placed w mem car = none) :
    Gives (fun n => (listAdd n w mem car).run) (.ok (-1, mem)) := by
  cases car with
  | none => exact gives_some _
  | some car =>
    cases hnew : malloc mem.nodes w.node with
    | none =>
      simp only [listAdd, hnew]
      exact gives_some _
    | some new =>
      have hdup : dataDup w mem car = none := by
        simp only [placed, Option.bind_some, hnew, Option.bind_eq_none_iff,
          Option.map_eq_none_iff] at h
        simp only [dataDup, Option.bind_eq_none_iff, Option.map_eq_none_iff]
        exact h
      simp only [listAdd, hnew, hdup]
      exact gives_some _

theorem gives_link (mem : Mem) (hchain : Seg mem.nodes mem.head (cells.map Cell.entry) none)
    (hnew : mem.nodes c.node = some ⟨some c.data, none⟩) (hfresh : ∀ e ∈ cells, e.node ≠ c.node) :
    ∃ head nodes', Gives (fun n => (link n mem c.node).run)
        (.ok { mem with head := head, nodes := nodes' }) ∧
      Seg nodes' head ((cells ++ [c]).map Cell.entry) none := by
  obtain rfl | ⟨front, last, rfl⟩ := List.eq_nil_or_concat' cells
  · have hhead : mem.head = none := hchain
    refine ⟨some c.node, mem.nodes, ?_, rfl, none, hnew, rfl⟩
    simp only [link, hhead, if_true]
    exact gives_some _
  · rw [List.map_append] at hchain
    have hne : mem.head ≠ none := fun hnone => by
      rw [hnone] at hchain
      cases front <;> exact absurd hchain.1 (by simp)
    obtain ⟨r, -, -, next, hlast, rfl⟩ := seg_append.mp hchain
    refine ⟨mem.head, store mem.nodes last.node ⟨some last.data, some c.node⟩, ?_, ?_⟩
    · simp only [link, if_neg hne]
      refine gives_bind (gives_of_ends _ (ends_last hchain)) ?_
      exact gives_bind (gives_access (modify_some hlast _)) (gives_some _)
    · rw [List.map_append, List.map_append]
      refine hchain.snoc hnew fun e he => ?_
      have hmem : e ∈ (front ++ [last]).map Cell.entry := by rwa [List.map_append]
      obtain ⟨d, hd, rfl⟩ := List.mem_map.mp hmem
      exact hfresh d hd

theorem gives_listAdd (h : Represents mem cells) (hp : placed w mem car = some c)
    (hmax : mem.size < intMax) : ∃ mem',
      Gives (fun n => (listAdd n w mem car).run) (.ok (0, mem')) ∧
        Represents mem' (cells ++ [c]) ∧ mem'.size = mem.size + 1 := by
  obtain ⟨rfl, hv, hnew, hd⟩ := placed_eq_some.mp hp
  have hdup : dataDup w mem c.car = some (c.data, store mem.records c.data c.car) := by
    rw [dataDup, dataDup_of_valid hv, hd]
    rfl
  have hfree := malloc_eq_some hnew
  have hdfree := malloc_eq_some hd
  have hsize : toInt (mem.size + 1) = mem.size + 1 := by
    refine toInt_eq ?_ (by omega)
    rw [h.size, intMin]
    omega
  have hfresh : ∀ e ∈ cells, e.data ≠ c.data := fun e he hed => by
    have hrec := h.records e he
    rw [hed, hdfree] at hrec
    cases hrec
  have hrecords : ∀ e ∈ cells ++ [c], store mem.records c.data c.car e.data = some e.car := by
    intro e he
    obtain he | he := List.mem_append.mp he
    · rw [store_of_ne (hfresh e he)]
      exact h.records e he
    · rw [List.mem_singleton.mp he, store_self]
  have hdistinct : ((cells ++ [c]).map Cell.data).Nodup := by
    rw [List.map_append, List.nodup_append]
    refine ⟨h.distinct, List.nodup_singleton _, fun x hx y hy => ?_⟩
    obtain ⟨e, he, rfl⟩ := List.mem_map.mp hx
    rw [List.map_singleton, List.mem_singleton] at hy
    exact hy ▸ hfresh e he
  have hlen : mem.size + 1 = ((cells ++ [c]).length : Int) := by
    rw [h.size, List.length_append, List.length_singleton, Nat.cast_add, Nat.cast_one]
  have hchain : Seg (store mem.nodes c.node ⟨some c.data, none⟩) mem.head
      (cells.map Cell.entry) none :=
    h.chain.congr fun e he => store_of_ne (h.chain.ne_of_free hfree he) _
  obtain ⟨head, nodes', hgives, hseg⟩ := gives_link { mem with
    nodes := store mem.nodes c.node ⟨some c.data, none⟩
    records := store mem.records c.data c.car } hchain (store_self _ _ _) fun e he =>
      h.chain.ne_of_free hfree (List.mem_map_of_mem he)
  refine ⟨⟨toInt (mem.size + 1), head, nodes', store mem.records c.data c.car⟩, ?_,
    ⟨hseg, hrecords, hdistinct, hsize.trans hlen⟩, hsize⟩
  simp only [listAdd, hnew, hdup]
  exact gives_bind hgives (gives_some _)

end Add

section Remove

variable {front back : List Cell} {c : Cell}

def before (front : List Cell) : Option Nat := front.getLast?.map Cell.node

theorem remaining {rest : List Cell} (h : Represents mem cells) (hperm : cells.Perm (c :: rest))
    (hmax : mem.size ≤ intMax) :
    (∀ d ∈ rest, Function.update mem.records c.data none d.data = some d.car) ∧
      (rest.map Cell.data).Nodup ∧ toInt (mem.size - 1) = rest.length := by
  have hdistinct := (hperm.map Cell.data).nodup_iff.mp h.distinct
  rw [List.map_cons, List.nodup_cons] at hdistinct
  have hsize := h.size
  rw [hperm.length_eq, List.length_cons, Nat.cast_add, Nat.cast_one] at hsize
  refine ⟨fun d hd => ?_, hdistinct.2, ?_⟩
  · have hne : d.data ≠ c.data := fun he =>
      hdistinct.1 (he ▸ List.mem_map_of_mem (f := Cell.data) hd)
    rw [Function.update_of_ne hne]
    exact h.records d (hperm.mem_iff.mpr (List.mem_cons_of_mem c hd))
  · rw [toInt_eq (by simp only [intMin]; omega) (by omega)]
    omega

theorem represents_tail (h : Represents mem (c :: back)) {next : Option Nat}
    (hc : mem.nodes c.node = some ⟨some c.data, next⟩) (hmax : mem.size ≤ intMax) :
    Represents ⟨toInt (mem.size - 1), next, Function.update mem.nodes c.node none,
      Function.update mem.records c.data none⟩ back := by
  obtain ⟨hrecords, hdistinct, hsize⟩ := remaining h (.refl _) hmax
  exact ⟨h.chain.tail hc, hrecords, hdistinct, hsize⟩

theorem represents_unlink {a : Cell} (h : Represents mem (front ++ a :: c :: back))
    {next : Option Nat} (hc : mem.nodes c.node = some ⟨some c.data, next⟩)
    (hmax : mem.size ≤ intMax) :
    Represents ⟨toInt (mem.size - 1), mem.head,
      Function.update (store mem.nodes a.node ⟨some a.data, next⟩) c.node none,
      Function.update mem.records c.data none⟩ (front ++ a :: back) := by
  have hchain := h.chain
  rw [List.map_append, List.map_cons, List.map_cons] at hchain
  have hperm : (front ++ a :: c :: back).Perm (c :: (front ++ a :: back)) := by
    rw [← List.singleton_append, ← List.append_assoc, List.append_cons front a back]
    exact List.perm_middle
  obtain ⟨hrecords, hdistinct, hsize⟩ := remaining h hperm hmax
  refine ⟨?_, hrecords, hdistinct, hsize⟩
  rw [List.map_append, List.map_cons]
  exact hchain.unlink hc

theorem unlink_eq (h : Represents mem (front ++ c :: back)) {next : Option Nat}
    (hc : mem.nodes c.node = some ⟨some c.data, next⟩) (hmax : mem.size ≤ intMax) :
    ∃ mem', unlink mem (before front) (some c.node) ⟨some c.data, next⟩ = .ok (0, mem') ∧
      Represents mem' (front ++ back) ∧ mem'.size = mem.size - 1 := by
  have hrec := h.records c (by simp)
  have hsize : toInt (mem.size - 1) = mem.size - 1 := by
    have hlen := h.size
    rw [List.length_append, List.length_cons] at hlen
    exact toInt_eq (by simp only [intMin]; omega) (by omega)
  obtain rfl | ⟨front, a, rfl⟩ := List.eq_nil_or_concat' front
  · refine ⟨_, ?_, represents_tail h hc hmax, hsize⟩
    simp only [unlink, before, List.getLast?_nil, Option.map_none, if_true, bind, Except.bind,
      free_some hrec, free_some hc, pure, Except.pure]
  · rw [List.append_assoc, List.singleton_append] at h ⊢
    have hne : c.node ≠ a.node := by
      have hnodup := h.nodup
      simp only [List.map_append, List.map_cons, List.nodup_append, List.nodup_cons,
        List.mem_cons, not_or] at hnodup
      exact fun he => hnodup.2.1.1.1 he.symm
    have ha : mem.nodes a.node = some ⟨some a.data, some c.node⟩ := by
      have hchain := h.chain
      rw [List.map_append] at hchain
      obtain ⟨r, -, rfl, next', ha, rfl, -⟩ := seg_append.mp hchain
      exact ha
    have hc' : store mem.nodes a.node ⟨some a.data, next⟩ c.node = some ⟨some c.data, next⟩ :=
      (store_of_ne hne _).trans hc
    refine ⟨_, ?_, represents_unlink h hc hmax, hsize⟩
    simp only [unlink, before, List.getLast?_concat, Option.map_some, reduceCtorEq, if_false,
      modify_some ha, Except.map, bind, Except.bind, free_some hrec, free_some hc', pure,
      Except.pure]

def without (modelo : CString) (cells : List Cell) : List Cell :=
  cells.eraseP fun c => decide (c.car.modelo = modelo)

theorem ends_remove {modelo : CString} (front : List Cell) (h : Represents mem (front ++ back))
    {p : Option Nat} (hp : Seg mem.nodes p (back.map Cell.entry) none) (hmax : mem.size ≤ intMax) :
    ∃ r, Ends (removeStep mem modelo) (before front, p) (.ok r) ∧
      if modelo ∈ back.map fun c => c.car.modelo
      then r.1 = 0 ∧ Represents r.2 (front ++ without modelo back) ∧ r.2.size = mem.size - 1
      else r = (1, mem) := by
  induction back generalizing front p with
  | nil =>
    obtain rfl : p = none := hp
    exact ⟨(1, mem), ends_done _ rfl, by simp⟩
  | cons c back ih =>
    obtain ⟨rfl, next, hc, hrest⟩ := hp
    have hrec := h.records c (by simp)
    by_cases hm : c.car.modelo = modelo
    · obtain ⟨mem', hunlink, hrep, hsize⟩ := unlink_eq h hc hmax
      refine ⟨(0, mem'), ends_done _ ?_, ?_⟩
      · simp only [removeStep, load_some hc, Except.bind, load_some hrec, Except.map, if_pos hm,
          hunlink]
      · have hwithout : without modelo (c :: back) = back := by
          rw [without, List.eraseP_cons_of_pos (by simpa using hm)]
        rw [if_pos (by simp [hm]), hwithout]
        exact ⟨rfl, hrep, hsize⟩
    · have hbefore : before (front ++ [c]) = some c.node := by simp [before]
      rw [List.append_cons] at h
      obtain ⟨r, hends, hr⟩ := ih (front ++ [c]) h hrest
      rw [hbefore] at hends
      refine ⟨r, ends_next _ ?_ hends, ?_⟩
      · simp only [removeStep, load_some hc, Except.bind, load_some hrec, Except.map, if_neg hm]
      · have hwithout : without modelo (c :: back) = c :: without modelo back := by
          rw [without, List.eraseP_cons_of_neg (by simpa using hm)]
          rfl
        have hm' : ¬ modelo = c.car.modelo := fun he => hm he.symm
        rw [hwithout, List.append_cons]
        simpa only [List.map_cons, List.mem_cons, hm', false_or] using hr

theorem gives_remove (h : Represents mem cells) (hmax : mem.size ≤ intMax) (modelo : CString) :
    ∃ r, Gives (fun n => (listRemoveByModel n mem (some modelo)).run) (.ok r) ∧
      if modelo ∈ cells.map fun c => c.car.modelo
      then r.1 = 0 ∧ Represents r.2 (without modelo cells) ∧ r.2.size = mem.size - 1
      else r = (1, mem) := by
  obtain ⟨r, hends, hr⟩ := ends_remove [] h h.chain hmax
  exact ⟨r, gives_of_ends _ hends, hr⟩

end Remove

/-- An addition in memory appends as on the list of values. -/
theorem view_add {w : Addition} {mem' : Mem} {c : Cell} {car : Option DataT}
    (hp : placed w mem car = some c) (hsize : mem'.size = mem.size + 1) :
    view mem' (cells ++ [c]) = (CarList.listAdd w.t (view mem cells) c.car).2 := by
  have hv := (placed_eq_some.mp hp).2.1
  rw [CarList.listAdd_eq, if_pos hv, view, hsize, List.map_append]
  rfl

theorem view_remove {mem' : Mem} {modelo : CString}
    (hm : modelo ∈ cells.map fun c => c.car.modelo) (hsize : mem'.size = mem.size - 1) :
    view mem' (without modelo cells) =
      (CarList.listRemoveByModel (view mem cells) (some modelo)).2 := by
  have hunlink := CarList.unlink_eq modelo (cells.map Cell.car)
  have hm' : modelo ∈ (cells.map Cell.car).map DataT.modelo := by rwa [List.map_map]
  rw [if_pos hm', List.eraseP_map] at hunlink
  simp only [CarList.listRemoveByModel, view, hunlink, hsize]
  rfl

section Arrays

theorem le_capacity {n : Int} (hmin : 0 ≤ n) (hmax : n ≤ intMax) : n + 1 ≤ capacity n := by
  simp only [intMax] at hmax
  simp only [capacity, toInt, toSizeT, Int.bmod]
  omega

theorem map_entry_snd (cells : List Cell) :
    (cells.map Cell.entry).map Prod.snd = cells.map fun c => some c.data := List.map_map ..

theorem room (h : Represents mem cells) (hmax : mem.size ≤ intMax) :
    cells.length + 1 ≤ capacity mem.size := by
  have hcap := le_capacity (n := mem.size) (by rw [h.size]; omega) hmax
  rw [h.size] at hcap ⊢
  exact_mod_cast hcap

theorem gives_listGetAll (h : Represents mem cells) (hmax : mem.size ≤ intMax) (b : Building) :
    Gives (fun n => (listGetAll n b mem).run)
      (.ok (if b.array then some ((cells.map fun c => some c.data) ++ [none]) else none)) := by
  cases hb : b.array with
  | false =>
    simp only [listGetAll, hb, Bool.not_false, if_true]
    exact gives_some _
  | true =>
    simp only [listGetAll, hb, Bool.not_true, Bool.false_eq_true, if_false, if_true]
    have hroom := room h hmax
    have hends := ends_collect (fun _ => .ok true) (fun _ => true) (fun _ data => .ok (some data))
      (fun _ data => some data) (capacity mem.size) h.chain (fun _ _ => rfl)
      (fun _ _ _ _ => rfl) none [] (by
        rw [map_entry_snd]
        simpa using hroom)
    rw [List.filter_true, map_entry_snd, makeAll_self] at hends
    exact gives_of_ends _ hends

theorem gives_listGetModelList (h : Represents mem cells) (hmax : mem.size ≤ intMax)
    (b : Building) : ∃ models, Gives (fun n => (listGetModelList n b mem).run) (.ok models) ∧
      (∀ array, models = some array → array = (cells.map fun c => some c.car.modelo) ++ [none]) ∧
      (b.array = true → (∀ i < cells.length, b.element i = true) → models ≠ none) := by
  cases hb : b.array with
  | false =>
    refine ⟨none, ?_, nofun, nofun⟩
    simp only [listGetModelList, hb, Bool.not_false, if_true]
    exact gives_some _
  | true =>
    let model : Option Nat → Option CString := fun data =>
      (data.bind mem.records).map DataT.modelo
    let makes : Nat → Option Nat → Option (Option CString) := fun i data =>
      if b.element i then some (model data) else none
    have hmodel : ∀ c ∈ cells, model (some c.data) = some c.car.modelo := fun c hc => by
      simp only [model, Option.bind_some, h.records c hc, Option.map_some]
    have hmap : (cells.map fun c => some c.data).map model = cells.map fun c => some c.car.modelo := by
      rw [List.map_map]
      exact List.map_congr_left hmodel
    have hroom := room h hmax
    have hends := ends_collect (fun _ => .ok true) (fun _ => true) (fun i data =>
        (load mem.records data).map fun data => if b.element i then some (some data.modelo) else none)
      makes (capacity mem.size) h.chain (fun _ _ => rfl) (fun i e he _ => by
        obtain ⟨c, hc, rfl⟩ := List.mem_map.mp he
        have hc' : model (some c.data) = some c.car.modelo := hmodel c hc
        simp only [Cell.entry, load_some (h.records c hc), Except.map, makes, hc'])
      none [] (by
        rw [map_entry_snd]
        simpa using hroom)
    rw [List.filter_true, map_entry_snd] at hends
    have hgives : Gives (fun n => (listGetModelList n b mem).run)
        (.ok ((makeAll makes 0 (cells.map fun c => some c.data)).map fun xs => xs ++ [none])) := by
      simp only [listGetModelList, hb, Bool.not_true, Bool.false_eq_true, if_false]
      exact gives_of_ends _ hends
    refine ⟨_, hgives, fun array harray => ?_, fun _ hall => ?_⟩
    · obtain ⟨xs, hxs, rfl⟩ := Option.map_eq_some_iff.mp harray
      have hxs' := eq_map_of_makeAll (f := model) (fun j data _ x hx => by
        exact (Option.some.inj (Option.ite_none_right_eq_some.mp hx).2).symm) hxs
      rw [hxs', hmap]
    · have hxs := makeAll_eq_some makes model 0 (l := cells.map fun c => some c.data)
        fun j hj _ _ => by
          rw [List.length_map, Nat.zero_add] at hj
          exact if_pos (hall j hj)
      rw [hxs]
      exact Option.some_ne_none _

theorem any_record (h : Represents mem cells) (p : DataT → Bool) {c : Cell} (hc : c ∈ cells) :
    ((some c.data).bind mem.records).any p = p c.car := by
  rw [Option.bind_some, h.records c hc, Option.any_some]

def ofYear (ano : Int) (cells : List Cell) : List Cell :=
  cells.filter fun c => decide (c.car.ano = ano)

theorem gives_listGetByYear (h : Represents mem cells) (hmax : mem.size ≤ intMax) (b : Building)
    (ano : Int) : Gives (fun n => (listGetByYear n b mem ano).run)
      (.ok (if b.array then some (((ofYear ano cells).map fun c => some c.data) ++ [none])
        else none)) := by
  let wants : Option Nat → Bool := fun data =>
    (data.bind mem.records).any fun data => decide (data.ano = ano)
  have hwants : ∀ c ∈ cells, wants (some c.data) = decide (c.car.ano = ano) :=
    fun _ hc => any_record h _ hc
  have hyear : ∀ c ∈ cells, hasYear mem.records ano (some c.data) = .ok (wants (some c.data)) :=
    fun c hc => by
      rw [hasYear, load_some (h.records c hc), hwants c hc]
      rfl
  have hentry : ∀ e ∈ cells.map Cell.entry, ∃ c ∈ cells, e.2 = some c.data := fun e he => by
    obtain ⟨c, hc, rfl⟩ := List.mem_map.mp he
    exact ⟨c, hc, rfl⟩
  have hfilter : ((cells.map Cell.entry).map Prod.snd).filter wants =
      (ofYear ano cells).map fun c => some c.data := by
    rw [map_entry_snd, List.filter_map, ofYear]
    exact congrArg _ (List.filter_congr hwants)
  have hcount := ends_count (hasYear mem.records ano) wants h.chain
    (fun e he => by
      obtain ⟨c, hc, hdata⟩ := hentry e he
      rw [hdata]
      exact hyear c hc) 0
  rw [hfilter, Nat.zero_add, List.length_map] at hcount
  have hlen : ((ofYear ano cells).length : Int) ≤ intMax := by
    have hle : (ofYear ano cells).length ≤ cells.length := List.length_filter_le ..
    rw [h.size] at hmax
    omega
  have hroom := le_capacity (Int.natCast_nonneg _) hlen
  refine gives_bind (gives_of_ends _ hcount) ?_
  cases hb : b.array with
  | false => exact gives_some _
  | true =>
    have hends := ends_collect
      (fun data => if data = none then .ok false else hasYear mem.records ano data) wants
      (fun _ data => .ok (some data)) (fun _ data => some data)
      (capacity (ofYear ano cells).length) h.chain
      (fun e he => by
        obtain ⟨c, hc, hdata⟩ := hentry e he
        rw [hdata, if_neg (Option.some_ne_none _)]
        exact hyear c hc)
      (fun _ _ _ _ => rfl) none [] (by
        rw [hfilter, List.length_map, List.length_nil, Nat.zero_add]
        exact_mod_cast hroom)
    rw [hfilter, makeAll_self] at hends
    exact gives_of_ends _ hends

theorem gives_listGetByMarca (h : Represents mem cells) (marca : Int) :
    Gives (fun n => (listGetByMarca n mem marca).run)
      (.ok ((cells.find? fun c => decide (c.car.marca = marca)).map Cell.data)) := by
  let wants : Option Nat → Bool := fun data =>
    (data.bind mem.records).any fun data => decide (data.marca = marca)
  have hwants : ∀ c ∈ cells, wants (some c.data) = decide (c.car.marca = marca) :=
    fun _ hc => any_record h _ hc
  have hends := ends_find
    (fun data => (load mem.records data).map fun data => decide (data.marca = marca)) wants h.chain (fun e he => by
      obtain ⟨c, hc, rfl⟩ := List.mem_map.mp he
      have hc' := hwants c hc
      simp only [Cell.entry, load_some (h.records c hc), Except.map, hc'])
  rw [map_entry_snd, List.find?_map] at hends
  have hfind : cells.find? (wants ∘ fun c => some c.data) =
      cells.find? fun c => decide (c.car.marca = marca) := List.find?_congr hwants
  rw [hfind] at hends
  refine gives_bind (gives_of_ends _ hends) ?_
  cases cells.find? fun c => decide (c.car.marca = marca) with
  | none => exact gives_some _
  | some c => exact gives_some _

end Arrays

end ListServer.MemoryList
