import ListServer.ClientStub
import ListServer.ServerLog

namespace ListServer.LogReplay

open Lib.CTypes Lib.Pointer CarData CarList Message Skeleton ClientStub ServerLog
open RequestSafety (MessagePtr LogLine arrayOf fromData opStr ctStr writeInServerLog)

/-- A request as `message_t__unpack` leaves it in memory. -/
def inMemory (msg : MessageT) : MessagePtr :=
  ⟨msg.opcode, msg.cType, msg.data, msg.result, msg.nModels, arrayOf msg.models, msg.nCars,
    arrayOf msg.cars⟩

def isEdit (msg : MessageT) : Bool := decide (msg.opcode = opAdd) || decide (msg.opcode = opDel)

def additionOf (modelo : CString) (ano marca combustivel : Int) : MessageT :=
  { MessageT.init with
    opcode := opAdd, cType := ctData,
    data := some ⟨ano, Single.zero, marca, some modelo, combustivel⟩ }

/-- The change that an entry tells of. Prices play no part in which models a
list has. -/
def requestOf (entry : Entry) : Option MessageT :=
  match entry.request with
  | some (_, _, .add modelo ano _ marca combustivel) =>
    some (additionOf (ofBytes modelo) ano marca combustivel)
  | some (_, _, .del modelo) => some (rlistRemoveByModelRequest (ofBytes modelo))
  | _ => none

def changes (file : Text) : List MessageT :=
  (readLog file).filterMap fun entry => entry.bind requestOf

def replay (t : AnoAtual) (list : ListT) (msgs : List MessageT) : ListT :=
  msgs.foldl (fun list msg => after t msg list) list

/-- The line of a request tells what it changes: an addition has a price that
is not negative, a removal names one model, and no model has a line break. -/
def Tellable (msg : MessageT) : Prop :=
  (msg.opcode = opAdd → ∃ d ∈ msg.data, d.preco.lt Single.zero = false ∧
    ∃ m ∈ d.modelo, 10 ∉ m.bytes) ∧
  (msg.opcode = opDel → msg.nModels = 1 ∧ msg.models.length = 1 ∧ ∀ m ∈ msg.models, 10 ∉ m.bytes)

instance : DecidablePred Tellable := fun msg =>
  inferInstanceAs (Decidable ((msg.opcode = opAdd → ∃ d ∈ msg.data, d.preco.lt Single.zero = false ∧
    ∃ m ∈ d.modelo, 10 ∉ m.bytes) ∧ (msg.opcode = opDel → msg.nModels = 1 ∧
      msg.models.length = 1 ∧ ∀ m ∈ msg.models, 10 ∉ m.bytes)))

/-- What the line of a request tells. -/
def told (msg : MessageT) : Option MessageT :=
  if msg.opcode = opAdd then msg.data.bind fun d =>
    d.modelo.map fun m => additionOf m d.ano d.marca d.combustivel
  else if msg.opcode = opDel then msg.models.head?.map rlistRemoveByModelRequest
  else none

section Requests

variable {t : AnoAtual} {msg : MessageT}

theorem tellable_addRequest {car : DataT} (hpreco : car.preco.lt Single.zero = false)
    (hmodelo : 10 ∉ car.modelo.bytes) : Tellable (addRequest car) :=
  ⟨fun _ => ⟨_, rfl, hpreco, _, rfl, hmodelo⟩, nofun⟩

theorem tellable_rlistRemoveByModelRequest {modelo : CString} (h : 10 ∉ modelo.bytes) :
    Tellable (rlistRemoveByModelRequest modelo) :=
  ⟨nofun, fun _ => ⟨rfl, rfl, fun _ hm => List.mem_singleton.mp hm ▸ h⟩⟩

theorem validarDados_zero {anoAtual ano marca combustivel : Int} {preco : Single}
    {modelo : Option CString} (h : preco.lt Single.zero = false) :
    validarDados anoAtual ano Single.zero marca modelo combustivel =
      validarDados anoAtual ano preco marca modelo combustivel := by
  have hzero : Single.zero.lt Single.zero = false := by decide
  rw [validarDados, validarDados, h, hzero]

/-- The server accepts the same additions at any other price that is not negative. -/
theorem accepted_additionOf {d : Data} {m : CString} (hdata : msg.data = some d)
    (hmodelo : d.modelo = some m) (hpreco : d.preco.lt Single.zero = false) :
    (accepted t (additionOf m d.ano d.marca d.combustivel)).map DataT.modelo =
      (accepted t msg).map DataT.modelo := by
  simp only [accepted, hdata, additionOf, Option.bind_some, hmodelo, dataCreate,
    validarDados_zero hpreco]
  split
  next =>
    simp only [Option.map_some, Option.bind_some, dataDup, dataCreate, validarDados_zero hpreco]
    split <;> rfl
  next => rfl

theorem models_after_add (h : msg.opcode = opAdd) (list : ListT) :
    models (after t msg list) =
      models list + (((accepted t msg).map DataT.modelo).toList : Multiset CString) := by
  rw [models_eq_map, cars_after_add h, Multiset.map_add, ← models_eq_map]
  cases accepted t msg <;> rfl

/-- A request that is read from its line changes the models as the request does. -/
theorem models_told (h : Tellable msg) {m : MessageT} (hm : told msg = some m) (list : ListT) :
    models (after t m list) = models (after t msg list) := by
  rw [told] at hm
  split at hm
  next hadd =>
    obtain ⟨d, hdata, hpreco, modelo, hmodelo, -⟩ := h.1 hadd
    rw [Option.mem_def.mp hdata, Option.bind_some, Option.mem_def.mp hmodelo] at hm
    obtain rfl := Option.some.inj hm
    rw [models_after_add hadd, models_after_add rfl, accepted_additionOf hdata hmodelo hpreco]
  next =>
    split at hm
    next hdel =>
      obtain ⟨hn, -, -⟩ := h.2 hdel
      obtain ⟨modelo, hmodelo, rfl⟩ := Option.map_eq_some_iff.mp hm
      have htarget : target msg = some modelo := by rw [target, if_pos hn, hmodelo]
      have htold : target (rlistRemoveByModelRequest modelo) = some modelo := rfl
      rw [after_del hdel, htarget, after_del rfl, htold]
    next => cases hm

theorem told_of_isEdit (h : Tellable msg) (hedit : isEdit msg = true) : ∃ m, told msg = some m := by
  simp only [isEdit, Bool.or_eq_true, decide_eq_true_eq] at hedit
  rw [told]
  obtain hadd | hdel := hedit
  · obtain ⟨d, hdata, -, modelo, hmodelo, -⟩ := h.1 hadd
    rw [if_pos hadd, Option.mem_def.mp hdata, Option.bind_some, Option.mem_def.mp hmodelo]
    exact ⟨_, rfl⟩
  · obtain ⟨-, hlength, -⟩ := h.2 hdel
    obtain ⟨modelo, hmodelo⟩ := List.length_eq_one_iff.mp hlength
    have hne : ¬ opDel = opAdd := by decide
    rw [hdel, if_neg hne, if_pos rfl, hmodelo]
    exact ⟨_, rfl⟩

theorem told_of_not_isEdit (h : isEdit msg = false) : told msg = none := by
  simp only [isEdit, Bool.or_eq_false_iff, decide_eq_false_iff_not] at h
  rw [told, if_neg h.1, if_neg h.2]

end Requests

section Lines

variable {formatF : Single → CString} {msg : MessageT} {e : Event}

theorem ofBytes_bytes (m : CString) : ofBytes m.bytes = m :=
  CString.ext (List.takeWhile_eq_self_iff.mpr fun b hb => decide_eq_true (m.nonzero b hb))

theorem fromData_some {α : Type} {msg : MessagePtr} {d : Data} (h : msg.data = some d)
    (f : Data → α) (absent : α) : fromData msg f absent = .ok (f d) := by
  rw [fromData, h]
  rfl

theorem logLine_add (hadd : msg.opcode = opAdd) {d : Data} (hd : msg.data = some d) :
    writeInServerLog (inMemory msg) = .ok (some ⟨opStr msg.opcode, ctStr msg.cType,
      .add d.modelo d.ano d.preco d.marca d.combustivel⟩) := by
  have hop : (inMemory msg).opcode = opAdd := hadd
  have hdata : (inMemory msg).data = some d := hd
  rw [writeInServerLog, if_pos hop]
  simp only [fromData_some hdata]
  rfl

theorem logLine_del (hdel : msg.opcode = opDel) {m : CString} (hm : msg.models = [m]) :
    writeInServerLog (inMemory msg) = .ok (some ⟨opStr msg.opcode, ctStr msg.cType,
      .del (some m)⟩) := by
  have hop : (inMemory msg).opcode = opDel := hdel
  have hne : ¬ opDel = opAdd := by decide
  have hmodels : (inMemory msg).models = arrayOf [m] := congrArg arrayOf hm
  rw [writeInServerLog, hop, if_neg hne, if_pos rfl, hmodels, ← hdel]
  rfl

/-- What `write_in_server_log` finds in a change: its model breaks no line. -/
theorem logLine_told (h : Tellable msg) (hedit : isEdit msg = true) :
    ∃ line m, writeInServerLog (inMemory msg) = .ok (some line) ∧
      LogArgs.modelo line.args = some m ∧ 10 ∉ m.bytes ∧
        requestOf (entryOf formatF e (some line)) = told msg := by
  simp only [isEdit, Bool.or_eq_true, decide_eq_true_eq] at hedit
  obtain hadd | hdel := hedit
  · obtain ⟨d, hdata, -, m, hmodelo, hm⟩ := h.1 hadd
    refine ⟨_, m, logLine_add hadd hdata, Option.mem_def.mp hmodelo, hm, ?_⟩
    rw [told, if_pos hadd, Option.mem_def.mp hdata, Option.bind_some, Option.mem_def.mp hmodelo]
    exact congrArg (fun m => some (additionOf m d.ano d.marca d.combustivel)) (ofBytes_bytes m)
  · obtain ⟨-, hlength, hbreak⟩ := h.2 hdel
    obtain ⟨m, hm⟩ := List.length_eq_one_iff.mp hlength
    have hne : ¬ opDel = opAdd := by decide
    refine ⟨_, m, logLine_del hdel hm, rfl, hbreak m (by simp [hm]), ?_⟩
    rw [told, hdel, if_neg hne, if_pos rfl, hm]
    exact congrArg (fun m => some (rlistRemoveByModelRequest m)) (ofBytes_bytes m)

theorem logLine_plain (h : isEdit msg = false) {line : LogLine}
    (hline : writeInServerLog (inMemory msg) = .ok (some line)) :
    LogArgs.modelo line.args = none ∧ requestOf (entryOf formatF e (some line)) = none := by
  simp only [isEdit, Bool.or_eq_false_iff, decide_eq_false_iff_not] at h
  have hop : (inMemory msg).opcode = msg.opcode := rfl
  rw [writeInServerLog, hop, if_neg h.1, if_neg h.2] at hline
  split_ifs at hline
  · obtain rfl := Option.some.inj (Except.ok.inj hline)
    exact ⟨rfl, rfl⟩
  · obtain rfl := Option.some.inj (Except.ok.inj hline)
    exact ⟨rfl, rfl⟩
  · cases hline

end Lines

section Read

variable {formatF : Single → CString} {msg : MessageT} {e : Event}

/-- The line of a request is read back, and tells what the request does. -/
theorem entries_told (h : Tellable msg) (he : e.msg = some (inMemory msg)) :
    breaksOf e = 0 ∧ (entries formatF e).filterMap requestOf = (told msg).toList := by
  have hcontent : content e = (writeInServerLog (inMemory msg)).map fun line => line.map some := by
    rw [content, he]
  rw [breaksOf, entries, hcontent]
  cases hedit : isEdit msg with
  | true =>
    obtain ⟨line, m, hline, hmodelo, hm, htold⟩ := @logLine_told formatF msg e h hedit
    rw [hline]
    refine ⟨?_, ?_⟩
    · show ((LogArgs.modelo line.args).map fun m => m.bytes.count 10).getD 0 = 0
      rw [hmodelo]
      exact List.count_eq_zero.mpr hm
    · show [entryOf formatF e (some line)].filterMap requestOf = _
      rw [List.filterMap_cons, htold]
      cases told msg <;> rfl
  | false =>
    rw [told_of_not_isEdit hedit]
    cases hwritten : writeInServerLog (inMemory msg) with
    | error => exact ⟨rfl, rfl⟩
    | ok written =>
      cases written with
      | none => exact ⟨rfl, rfl⟩
      | some line =>
        obtain ⟨hmodelo, hnone⟩ := @logLine_plain formatF msg e hedit line hwritten
        refine ⟨?_, ?_⟩
        · show ((LogArgs.modelo line.args).map fun m => m.bytes.count 10).getD 0 = 0
          rw [hmodelo]
          rfl
        · show [entryOf formatF e (some line)].filterMap requestOf = _
          rw [List.filterMap_cons, hnone]
          rfl

theorem changes_nil : changes [] = [] := rfl

theorem changes_line (hf : ∀ x, Word (formatF x).bytes) (h : breaksOf e = 0) {str : Option CString}
    (hstr : finalLine formatF e = .ok str) (rest : Text) : changes (LogQueue.text str ++ rest) =
      (entries formatF e).filterMap requestOf ++ changes rest := by
  rw [changes, text_finalLine hf hstr, readLog_eventText hf h, List.filterMap_append,
    List.filterMap_map]
  rfl

theorem changes_request (hf : ∀ x, Word (formatF x).bytes) (h : Tellable msg)
    (he : e.msg = some (inMemory msg)) {str : Option CString} (hstr : finalLine formatF e = .ok str)
    (rest : Text) : changes (LogQueue.text str ++ rest) = (told msg).toList ++ changes rest := by
  obtain ⟨hbreaks, htold⟩ := @entries_told formatF msg e h he
  rw [changes_line hf hbreaks hstr, htold]

theorem changes_connection (hf : ∀ x, Word (formatF x).bytes) (he : e.msg = none)
    {str : Option CString} (hstr : finalLine formatF e = .ok str) (rest : Text) :
    changes (LogQueue.text str ++ rest) = changes rest := by
  have hcontent : content e = .ok (some none) := by rw [content, he]
  have hbreaks : breaksOf e = 0 := by rw [breaksOf, hcontent]; rfl
  have hentries : entries formatF e = [entryOf formatF e none] := by rw [entries, hcontent]
  rw [changes_line hf hbreaks hstr, hentries]
  rfl

end Read

section Replay

variable {t : AnoAtual}

/-- A replay of what the lines tell gives the models that the requests give. -/
theorem models_replay {msgs : List MessageT} (h : ∀ msg ∈ msgs, Tellable msg) {l l' : ListT}
    (hmodels : models l = models l') :
    models (replay t l (msgs.filterMap told)) = models (replay t l' msgs) := by
  induction msgs generalizing l l' with
  | nil => exact hmodels
  | cons msg msgs ih =>
    have hrest := fun m hm => h m (List.mem_cons_of_mem msg hm)
    cases htold : told msg with
    | some m =>
      rw [List.filterMap_cons_some htold]
      refine ih hrest ?_
      rw [models_told (h msg List.mem_cons_self) htold]
      exact models_after_congr msg t hmodels
    | none =>
      rw [List.filterMap_cons_none htold]
      refine ih hrest (hmodels.trans ?_)
      cases hedit : isEdit msg with
      | true =>
        obtain ⟨m, hm⟩ := told_of_isEdit (h msg List.mem_cons_self) hedit
        rw [htold] at hm
        cases hm
      | false =>
        simp only [isEdit, Bool.or_eq_false_iff, decide_eq_false_iff_not] at hedit
        rw [models_eq_map, models_eq_map, cars_after_of_not_write hedit.1 hedit.2]

end Replay

end ListServer.LogReplay
