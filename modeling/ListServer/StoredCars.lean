import ListServer.ListTransfer
import ListServer.ClientThread
import ListServer.ClientStub
import ListServer.Lib.Transition

namespace ListServer.StoredCars

open Lib.CTypes Lib.Transition CarData CarList Message Skeleton ClientThread ListTransfer

/-- A request that a server handles: the readings of the clock meanwhile and
the code of the forward, which is 0 for a request that is not forwarded. -/
structure Turn where
  t : AnoAtual
  fwdRc : Int
  msg : MessageT
deriving DecidableEq

/-- The last reading of the clock and the list of a server. -/
structure State where
  ano : Int
  list : ListT
deriving DecidableEq

def State.start (ano : Int) : State := ⟨ano, listCreate⟩

/-- The clock never goes back. -/
def step (s : State) (e : Turn) : Option State :=
  if s.ano ≤ e.t.create ∧ e.t.create ≤ e.t.dup then
    some ⟨e.t.dup, (afterForward e.t e.fwdRc e.msg s.list).2⟩
  else none

/-- What a stored car should be in the given year. Its model is a string by
its type. -/
structure Sound (ano : Int) (car : DataT) : Prop where
  year : 1886 ≤ car.ano ∧ car.ano ≤ ano
  price : Single.zero.le car.preco = true
  brand : marcaToyota ≤ car.marca ∧ car.marca ≤ marcaMercedes
  fuel : combustivelGasolina ≤ car.combustivel ∧ car.combustivel ≤ combustivelHibrido

def AllSound (s : State) : Prop := ∀ car ∈ s.list.head, Sound s.ano car

/-- The request is executed, adds a car and passes the validation, and its
price is a NaN. -/
def StoresNaN (e : Turn) : Prop :=
  (e.fwdRc = 0 ∨ e.fwdRc = -2) ∧ e.msg.opcode = opAdd ∧
    ∃ d, e.msg.data = some d ∧ d.preco.isNaN = true ∧
      validarDados e.t.create d.ano d.preco d.marca d.modelo d.combustivel = true

theorem sound_iff {ano : Int} {car : DataT} :
    Sound ano car ↔ Valid ano car ∧ car.preco.isNaN = false := by
  have hzero : Single.zero.isNaN = false := by decide
  rw [valid_iff]
  constructor
  · intro h
    have hprice := Single.le_iff.mp h.price
    exact ⟨⟨h.year, hprice.2.2, h.brand, h.fuel⟩, hprice.2.1⟩
  · rintro ⟨⟨hyear, hlt, hbrand, hfuel⟩, hnan⟩
    exact ⟨hyear, Single.le_iff.mpr ⟨hzero, hnan, hlt⟩, hbrand, hfuel⟩

theorem Sound.later {ano ano' : Int} {car : DataT} (h : Sound ano car) (ha : ano ≤ ano') :
    Sound ano' car := { h with year := ⟨h.year.1, h.year.2.trans ha⟩ }

theorem step_eq_some {s s' : State} {e : Turn} : step s e = some s' ↔
    (s.ano ≤ e.t.create ∧ e.t.create ≤ e.t.dup) ∧
      ⟨e.t.dup, (afterForward e.t e.fwdRc e.msg s.list).2⟩ = s' := by
  simp [step]

theorem afterForward_list (t : AnoAtual) (fwdRc : Int) (msg : MessageT) (list : ListT) :
    (afterForward t fwdRc msg list).2 =
      if fwdRc = 0 ∨ fwdRc = -2 then after t msg list else list := by
  by_cases hz : fwdRc = 0
  · simp [hz, after]
  by_cases ha : fwdRc = -2
  · simp [ha, after]
  · simp [afterForward, hz, ha]

theorem mem_step {s s' : State} {e : Turn} {car : DataT} (h : step s e = some s')
    (hcar : car ∈ s'.list.head) : car ∈ s.list.head ∨
      ((e.fwdRc = 0 ∨ e.fwdRc = -2) ∧ e.msg.opcode = opAdd ∧ accepted e.t e.msg = some car) := by
  obtain ⟨-, rfl⟩ := step_eq_some.mp h
  rw [afterForward_list] at hcar
  split at hcar
  next hrc =>
    obtain hcar | hadd := mem_after hcar
    · exact .inl hcar
    · exact .inr ⟨hrc, hadd⟩
  next => exact .inl hcar

theorem accepted_of_storesNaN {e : Turn} (h : StoresNaN e) (hle : e.t.create ≤ e.t.dup) :
    ∃ car, accepted e.t e.msg = some car ∧ car.preco.isNaN = true := by
  obtain ⟨-, -, d, hd, hnan, hv⟩ := h
  cases hm : d.modelo with
  | none => simp [hm, validarDados] at hv
  | some m =>
    have hvalid : Valid e.t.create ⟨d.ano, d.preco, d.marca, m, d.combustivel⟩ := by
      rwa [Valid, ← hm]
    refine ⟨_, accepted_eq_some.mpr ⟨?_, hvalid, hvalid.later hle⟩, hnan⟩
    rw [hd, dataToProtobuf, ← hm]

/-- Soundness of all cars is kept by exactly the requests that store no NaN. -/
theorem step_sound {s s' : State} {e : Turn} (h : AllSound s) (hs : step s e = some s') :
    AllSound s' ↔ ¬ StoresNaN e := by
  obtain ⟨⟨hle, hle'⟩, hs'⟩ := step_eq_some.mp hs
  have hano : s'.ano = e.t.dup := by rw [← hs']
  constructor
  · intro hall hnan
    obtain ⟨car, hacc, hprice⟩ := accepted_of_storesNaN hnan hle'
    have hmem : car ∈ s'.list.head := by
      rw [← hs', afterForward_list, if_pos hnan.1, after_add hnan.2.1, hacc]
      exact List.mem_append_right _ (List.mem_singleton.mpr rfl)
    have hfalse := (sound_iff.mp (hall car hmem)).2
    rw [hprice] at hfalse
    cases hfalse
  · intro hnan car hcar
    obtain hcar | ⟨hrc, hadd, hacc⟩ := mem_step hs hcar
    · rw [hano]
      exact (h car hcar).later (hle.trans hle')
    · obtain ⟨hd, hv, hv'⟩ := accepted_eq_some.mp hacc
      rw [hano]
      refine sound_iff.mpr ⟨hv', ?_⟩
      by_contra hprice
      exact hnan ⟨hrc, hadd, _, hd, by simpa [dataToProtobuf] using hprice, hv⟩

theorem sound_start (ano : Int) : AllSound (State.start ano) :=
  fun _ h => by simp [State.start, listCreate] at h

/-- All cars are sound in every state of a run from the empty list exactly if
no request of the run stores a NaN. -/
theorem all_sound_iff {ano : Int} {es : List Turn} {s : State}
    (h : run step (State.start ano) es = some s) :
    (∀ ks ms r, es = ks ++ ms → run step (State.start ano) ks = some r → AllSound r) ↔
      Meets step (fun _ e => ¬ StoresNaN e) (State.start ano) es :=
  reached_iff_meets_of_run step (fun _ _ _ => step_sound) (sound_start ano) h

/-- The list was made by requests, none of them handled after the given year.
Its counter is an `int`. -/
structure Reached (ano : Int) (list : ListT) : Prop where
  run : ∃ ano' es s, run step (State.start ano') es = some s ∧ s.list = list ∧
    s.ano ≤ ano
  counter : list.size ≤ intMax

theorem Reached.wellFormed {ano : Int} {list : ListT} (h : Reached ano list) :
    WellFormed ano list := by
  obtain ⟨ano', es, s, hrun, rfl, hle⟩ := h.run
  have hinv : WellFormed s.ano s.list := by
    refine run_invariant_of_step step (I := fun s => WellFormed s.ano s.list)
      (fun s e s' hs hstep => ?_) (wellFormed_create ano') hrun
    obtain ⟨⟨hle, hle'⟩, hs'⟩ := step_eq_some.mp hstep
    refine ⟨?_, fun car hcar => ?_⟩
    · rw [← hs', afterForward_list]
      split
      · exact counted_after hs.size _ _
      · exact hs.size
    · have hano : s'.ano = e.t.dup := by rw [← hs']
      rw [hano]
      obtain hcar | ⟨-, -, hacc⟩ := mem_step hstep hcar
      · exact (hs.valid car hcar).later (hle.trans hle')
      · exact (accepted_eq_some.mp hacc).2.2
  exact { hinv with valid := fun car hcar => (hinv.valid car hcar).later hle }

def turn (msg : MessageT) : Turn := ⟨.same 2026, -2, msg⟩

theorem all_sound_toyota :
    ∃ s, run step (State.start 2026) [turn (ClientStub.toyotaRequest 2020)] = some s ∧
      AllSound s := by
  have hmeets : Meets step (fun _ e => ¬ StoresNaN e) (State.start 2026)
      [turn (ClientStub.toyotaRequest 2020)] := by
    refine ⟨fun h => ?_, fun _ _ => trivial⟩
    obtain ⟨-, -, d, hd, hnan, -⟩ := h
    obtain rfl : ClientStub.toyotaData 2020 = d := Option.some.inj hd
    exact absurd hnan (by decide)
  exact ⟨_, rfl, (all_sound_iff rfl).mpr hmeets _ [] _ (List.append_nil _).symm rfl⟩

def nanRequest : MessageT :=
  { MessageT.init with
    opcode := opAdd, cType := ctData,
    data := some { ClientStub.toyotaData 2020 with preco := ⟨0x7FC00000⟩ } }

/-- A NaN is not smaller than zero and gets past the validation. -/
theorem nan_stored : ¬ ∀ ks ms r, [turn nanRequest] = ks ++ ms →
    run step (State.start 2026) ks = some r → AllSound r := by
  intro h
  have hall := h [turn nanRequest] [] _ rfl rfl
  have hcar := hall _ (List.mem_singleton.mpr rfl)
  exact absurd hcar.price (by decide)

end ListServer.StoredCars
