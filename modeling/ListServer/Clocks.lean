import ListServer.Forwarding

namespace ListServer.Clocks

open CarData CarList Message Skeleton ClientThread ClientStub Forwarding

variable {msg : MessageT}

def execute (msg : MessageT) (s : Replica) : Replica := { s with list := after s.ano msg s.list }

theorem clientThread_ok (msg : MessageT) (s : Replica) (rest : List Replica) :
    (clientThread msg (fun _ => .ok) s rest).server = execute msg s ∧
      (clientThread msg (fun _ => .ok) s rest).below = rest.map (execute msg) ∧
      (clientThread msg (fun _ => .ok) s rest).reply = reply s.ano msg s.list := by
  induction rest generalizing s with
  | nil => exact ⟨rfl, rfl, rfl⟩
  | cons u rest ih =>
    obtain ⟨h1, h2, -⟩ := ih u
    exact ⟨rfl, congrArg₂ List.cons h1 h2, rfl⟩

def servers (o : Outcome) : List Replica := o.server :: o.below

def store (car : DataT) (s : Replica) : Replica :=
  { s with list := ⟨s.list.size + 1, s.list.head ++ [car]⟩ }

def StoredByAll (msg : MessageT) (before after : List Replica) : Prop :=
  ∃ car, msg.data = some (dataToProtobuf car) ∧ after = before.map (store car)

structure AllOrNothing (msg : MessageT) (before : List Replica) (o : Outcome) : Prop where
  stored : StoredByAll msg before (servers o) ∨ servers o = before
  acknowledged : o.reply.opcode = opAdd + 1 ↔ StoredByAll msg before (servers o)

theorem accepted_eq_some {ano : Int} {car : DataT} :
    accepted (.same ano) msg = some car ↔
      msg.data = some (dataToProtobuf car) ∧ Valid ano car := by
  simp only [accepted, AnoAtual.same, Option.bind_eq_some_iff, dataDup_eq_some, dataCreate_eq_some]
  constructor
  · rintro ⟨d, hd, c, ⟨h1, h2, h3, h4, h5, -⟩, rfl, hv⟩
    cases d
    simp only at h1 h2 h3 h4 h5
    subst h1 h2 h3 h4 h5
    exact ⟨hd, hv⟩
  · rintro ⟨hd, hv⟩
    exact ⟨_, hd, car, ⟨rfl, rfl, rfl, rfl, rfl, hv⟩, rfl, hv⟩

theorem valid_iff (ano : Int) (car : DataT) :
    Valid ano car ↔ Valid car.ano car ∧ car.ano ≤ ano := by
  simp only [Valid, validarDados]
  by_cases h : car.ano ≤ ano
  · have h' : ¬ car.ano > ano := by omega
    simp [h, h']
  · have h' : car.ano > ano := by omega
    simp [h, h']

def chain (list : ListT) (years : List Int) : List Replica := years.map fun y => ⟨.same y, list⟩

theorem execute_accepted (hop : msg.opcode = opAdd) {ano : Int} {list : ListT} {car : DataT}
    (h : accepted (.same ano) msg = some car) :
    execute msg ⟨.same ano, list⟩ = store car ⟨.same ano, list⟩ := by
  simp only [execute, store, after_add hop, h]

theorem execute_refused (hop : msg.opcode = opAdd) {ano : Int} {list : ListT}
    (h : accepted (.same ano) msg = none) :
    execute msg ⟨.same ano, list⟩ = ⟨.same ano, list⟩ := by
  simp only [execute, after_add hop, h]

theorem store_ne (car : DataT) (s : Replica) : store car s ≠ s := by
  intro h
  have hsize : s.list.size + 1 = s.list.size := congrArg (fun r => r.list.size) h
  omega

theorem execute_eq_store (hop : msg.opcode = opAdd) (ano : Int) (list : ListT) {car : DataT}
    (hd : msg.data = some (dataToProtobuf car)) :
    execute msg ⟨.same ano, list⟩ = store car ⟨.same ano, list⟩ ↔ Valid ano car := by
  constructor
  · intro h
    cases ha : accepted (.same ano) msg with
    | none => exact absurd (h.symm.trans (execute_refused hop ha)) (store_ne car _)
    | some c =>
      obtain ⟨hc, hv⟩ := accepted_eq_some.mp ha
      obtain rfl : c = car := by
        cases c; cases car
        simpa [dataToProtobuf] using hc.symm.trans hd
      exact hv
  · exact fun hv => execute_accepted hop (accepted_eq_some.mpr ⟨hd, hv⟩)

theorem execute_eq_self (hop : msg.opcode = opAdd) (ano : Int) (list : ListT) :
    execute msg ⟨.same ano, list⟩ = ⟨.same ano, list⟩ ↔
      ∀ car, msg.data = some (dataToProtobuf car) → ¬ Valid ano car := by
  constructor
  · intro h car hd hv
    exact store_ne car _ ((execute_accepted hop (accepted_eq_some.mpr ⟨hd, hv⟩)).symm.trans h)
  · intro h
    refine execute_refused hop (Option.eq_none_iff_forall_ne_some.mpr fun car hc => ?_)
    obtain ⟨hd, hv⟩ := accepted_eq_some.mp hc
    exact h car hd hv

theorem servers_eq (msg : MessageT) (list : ListT) (y : Int) (ys : List Int) :
    servers (clientThread msg (fun _ => .ok) ⟨.same y, list⟩ (chain list ys)) =
      (chain list (y :: ys)).map (execute msg) := by
  obtain ⟨h1, h2, -⟩ := clientThread_ok msg ⟨.same y, list⟩ (chain list ys)
  rw [servers, h1, h2]
  rfl

theorem storedByAll_iff (hop : msg.opcode = opAdd) (list : ListT) (years : List Int) :
    StoredByAll msg (chain list years) ((chain list years).map (execute msg)) ↔
      ∃ car, msg.data = some (dataToProtobuf car) ∧ ∀ y ∈ years, Valid y car := by
  refine exists_congr fun car => and_congr_right fun hd => ?_
  simp only [chain, List.map_inj_left, List.forall_mem_map, execute_eq_store hop _ list hd]

theorem unchanged_iff (hop : msg.opcode = opAdd) (list : ListT) (years : List Int) :
    (chain list years).map (execute msg) = chain list years ↔
      ∀ y ∈ years, ∀ car, msg.data = some (dataToProtobuf car) → ¬ Valid y car := by
  conv_lhs => rhs; rw [← List.map_id (chain list years)]
  simp only [chain, List.map_inj_left, List.forall_mem_map, id, execute_eq_self hop]

/-- The success reply comes from the first server's own validation. -/
theorem acknowledged_iff (hop : msg.opcode = opAdd) (list : ListT) (y : Int) (ys : List Int) :
    (clientThread msg (fun _ => .ok) ⟨.same y, list⟩ (chain list ys)).reply.opcode = opAdd + 1 ↔
      ∃ car, msg.data = some (dataToProtobuf car) ∧ Valid y car := by
  obtain ⟨-, -, h⟩ := clientThread_ok msg ⟨.same y, list⟩ (chain list ys)
  have herr : opError ≠ opAdd + 1 := by decide
  simp only [h, reply, serve_add hop, ← accepted_eq_some]
  cases ha : accepted (.same y) msg with
  | none => simpa [MessageT.error] using herr
  | some car => simp [Skeleton.MessageT.added]

/-- No clock, or every clock, is behind the year of a car that is valid otherwise. -/
def SameSide (msg : MessageT) (years : List Int) : Prop :=
  ∀ car, msg.data = some (dataToProtobuf car) → Valid car.ano car →
    (∀ y ∈ years, car.ano ≤ y) ∨ ∀ y ∈ years, y < car.ano

theorem add_all_or_nothing_iff (hop : msg.opcode = opAdd) (list : ListT) (y : Int)
    (ys : List Int) :
    AllOrNothing msg (chain list (y :: ys))
        (clientThread msg (fun _ => .ok) ⟨.same y, list⟩ (chain list ys)) ↔
      SameSide msg (y :: ys) := by
  constructor
  · rintro ⟨hstored, -⟩ car hd hv
    rw [servers_eq, storedByAll_iff hop, unchanged_iff hop] at hstored
    obtain ⟨c, hc, hall⟩ | hnone := hstored
    · obtain rfl : c = car := by
        cases c; cases car
        simpa [dataToProtobuf] using hc.symm.trans hd
      exact .inl fun x hx => ((valid_iff x c).mp (hall x hx)).2
    · refine .inr fun x hx => ?_
      by_contra hlt
      exact hnone x hx car hd ((valid_iff x car).mpr ⟨hv, by omega⟩)
  · intro h
    have hself : y ∈ y :: ys := List.mem_cons_self
    by_cases hcar : ∃ car, msg.data = some (dataToProtobuf car) ∧ ∀ x ∈ y :: ys, Valid x car
    · have hstored := (storedByAll_iff hop list (y :: ys)).mpr hcar
      obtain ⟨car, hd, hall⟩ := hcar
      constructor
      · exact .inl (servers_eq msg list y ys ▸ hstored)
      · rw [acknowledged_iff hop, servers_eq]
        exact ⟨fun _ => hstored, fun _ => ⟨car, hd, hall y hself⟩⟩
    · -- then every clock is behind the year of the car, or the car is invalid anyway
      have hnone : ∀ x ∈ y :: ys, ∀ car, msg.data = some (dataToProtobuf car) → ¬ Valid x car := by
        intro x hx car hd hv
        obtain ⟨hv, hle⟩ := (valid_iff x car).mp hv
        obtain hall | hall := h car hd hv
        · exact hcar ⟨car, hd, fun z hz => (valid_iff z car).mpr ⟨hv, hall z hz⟩⟩
        · have hlt := hall x hx
          omega
      constructor
      · exact .inr (servers_eq msg list y ys ▸ (unchanged_iff hop list (y :: ys)).mpr hnone)
      · rw [acknowledged_iff hop, servers_eq, storedByAll_iff hop]
        constructor
        · rintro ⟨car, hd, hv⟩
          exact absurd hv (hnone y hself car hd)
        · exact fun hc => absurd hc hcar

theorem add_all_or_nothing_toyota :
    AllOrNothing (toyotaRequest 2020) (chain listCreate [2026, 2025])
      (clientThread (toyotaRequest 2020) (fun _ => .ok) ⟨.same 2026, listCreate⟩
        (chain listCreate [2025])) := by
  refine (add_all_or_nothing_iff rfl listCreate 2026 [2025]).mpr fun car hd _ => .inl ?_
  have hano : car.ano = 2020 := by
    simpa [toyotaRequest, toyotaData, dataToProtobuf] using (congrArg (Option.map Data.ano) hd).symm
  simp [hano]

/-- Around New Year the first server stores and acknowledges a car that its
successor has refused. -/
theorem add_not_all_or_nothing :
    ¬ AllOrNothing (toyotaRequest 2026) (chain listCreate [2026, 2025])
      (clientThread (toyotaRequest 2026) (fun _ => .ok) ⟨.same 2026, listCreate⟩
        (chain listCreate [2025])) := by
  rintro ⟨-, hack⟩
  obtain ⟨car, -, hall⟩ := hack.mp (by decide)
  have hsecond := congrArg (fun rs => rs.map fun r => r.list.size) hall
  revert hsecond
  simp only [chain, store, List.map_cons, List.map_nil]
  decide

end ListServer.Clocks
