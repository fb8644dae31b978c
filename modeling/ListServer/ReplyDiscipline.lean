import ListServer.RequestSafety

namespace ListServer.ReplyDiscipline

open Lib.CTypes CarData CarList Message Skeleton ClientThread PackedSize RequestSafety

/-- A list as `list.c` builds it, with a counter that is an `int`. -/
structure ServedList extends BuiltList where
  counter : list.size ≤ intMax

/-- The type and the contents of a success reply, as the stub of the operation
reads them. -/
inductive Payload (msg : MessageT) (list : ListT) (m : MessageT) : Prop
  | add (hop : msg.opcode = opAdd) (hct : m.cType = ctNone) (hres : m.result = 0)
  | del (hop : msg.opcode = opDel) (hct : m.cType = ctResult) (modelo : CString)
      (hmodelo : msg.models = [modelo])
      (hres : m.result = if modelo ∈ listGetModelList list then 0 else 1)
  | get (hop : msg.opcode = opGet) (hct : m.cType = ctData) (car : DataT)
      (hcar : listGetByMarca list msg.result = some car) (hdata : m.data = some (dataToProtobuf car))
  | getListByYear (hop : msg.opcode = opGetListByYear) (hct : m.cType = ctList)
      (hyear : msg.result ≠ -1) (hn : m.nCars = m.cars.length)
      (hcars : m.cars = (listGetByYear list msg.result).map dataToProtobuf)
  | order (hop : msg.opcode = opGetListByYear) (hct : m.cType = ctList)
      (hyear : msg.result = -1) (hn : m.nCars = m.cars.length)
      (hcars : m.cars = (listOrderByYear list).head.map dataToProtobuf)
  | size (hop : msg.opcode = opSize) (hct : m.cType = ctResult) (hres : m.result = listSize list)
  | getModels (hop : msg.opcode = opGetModels) (hct : m.cType = ctModel)
      (hn : m.nModels = m.models.length) (hmodels : m.models = listGetModelList list)

structure Success (msg : MessageT) (list : ListT) (m : MessageT) : Prop where
  opcode : m.opcode = msg.opcode + 1
  payload : Payload msg list m

structure ErrorReply (m : MessageT) : Prop where
  opcode : m.opcode = opError
  cType : m.cType = ctNone
  result : m.result = -1

/-- A reply and the list that is left are those of a success, or of an error
that has changed nothing. -/
def Disciplined (msg : MessageT) (list : ListT) (v : MessageT × ListT) : Prop :=
  Success msg list v.1 ∨ (ErrorReply v.1 ∧ v.2 = list)

/-- The message that `network_send` packs is such a reply, where `malloc` and
`strdup` succeed. -/
def Replies (t : AnoAtual) (next : Bool) (resp : Option MessageT) (u : Unpacked)
    (l : ServedList) : Prop :=
  ∃ p list m rc, handle t next resp u.inMemory l.list = .ok (p, list, rc) ∧
    readMessage p = .ok m ∧ Disciplined u.msg l.list (m, list)

/-- The request is no `OP_DEL` without a model and no `OP_GET` of another type
than `CT_MARCA`, and if its forward gets no reply, it came with `CT_NONE`. -/
structure Regular (next : Bool) (resp : Option MessageT) (msg : MessageT) : Prop where
  del : msg.opcode = opDel → msg.nModels ≠ 0
  get : msg.opcode = opGet → msg.cType = ctMarca
  forward : needsForward msg = true → next = true → resp = none → msg.cType = ctNone

variable {t : AnoAtual} {msg : MessageT} {list : ListT}

theorem errorReply_error (msg : MessageT) : ErrorReply msg.error := ⟨rfl, rfl, rfl⟩

theorem disciplined_error : Disciplined msg list (msg.error, list) :=
  .inr ⟨errorReply_error msg, rfl⟩

theorem disciplined_add (h : msg.opcode = opAdd) : Disciplined msg list (serve t msg list) := by
  rw [serve_add h]
  cases accepted t msg with
  | none => exact disciplined_error
  | some car => exact .inl ⟨by rw [h]; rfl, .add h rfl rfl⟩

theorem disciplined_del (h : msg.opcode = opDel) (hn : msg.nModels = msg.models.length) :
    Disciplined msg list (serve t msg list) := by
  rw [serve_del h]
  by_cases hone : msg.nModels = 1
  · obtain ⟨modelo, hmodels⟩ := List.length_eq_one_iff.mp (hn.symm.trans hone)
    rw [if_neg (not_not.mpr hone), hmodels]
    exact .inl ⟨by rw [h]; rfl, .del h rfl modelo hmodels (remove_models modelo list).1⟩
  · rw [if_pos hone]
    exact disciplined_error

theorem disciplined_get (h : msg.opcode = opGet) (hct : msg.cType = ctMarca) :
    Disciplined msg list (serve t msg list) := by
  have hserve : serve t msg list = (invokeGet msg list).2 := by
    rw [serve, invoke, h]
    rfl
  rw [hserve, invokeGet, if_pos hct]
  cases hcar : listGetByMarca list msg.result with
  | none => exact disciplined_error
  | some car => exact .inl ⟨rfl, .get h rfl car hcar rfl⟩

theorem disciplined_getListByYear (h : msg.opcode = opGetListByYear) :
    Disciplined msg list (serve t msg list) := by
  have hserve : serve t msg list = (invokeGetListByYear msg list).2 := by
    rw [serve, invoke, h]
    rfl
  rw [hserve, invokeGetListByYear]
  by_cases hyear : msg.result = -1
  · rw [if_neg (not_not.mpr hyear)]
    exact .inl ⟨rfl, .order h rfl hyear (List.length_map _).symm rfl⟩
  · rw [if_pos hyear]
    exact .inl ⟨rfl, .getListByYear h rfl hyear (List.length_map _).symm rfl⟩

theorem disciplined_size (h : msg.opcode = opSize) (hc : Counted list) :
    Disciplined msg list (serve t msg list) := by
  have hserve : serve t msg list = (invokeSize msg list).2 := by
    rw [serve, invoke, h]
    rfl
  have hsize : listSize list ≠ -1 := by
    rw [listSize, hc]
    omega
  rw [hserve, invokeSize, if_neg hsize]
  exact .inl ⟨rfl, .size h rfl rfl⟩

theorem disciplined_getModels (h : msg.opcode = opGetModels) (hc : Counted list)
    (hmax : list.size ≤ intMax) : Disciplined msg list (serve t msg list) := by
  have hserve : serve t msg list = (invokeGetModels msg list).2 := by
    rw [serve, invoke, h]
    rfl
  rw [hserve, invokeGetModels]
  exact .inl ⟨rfl, .getModels h rfl (toSizeT_models hc hmax) rfl⟩

/-- `invoke` keeps to the discipline unless it gets an `OP_GET` of another type
than `CT_MARCA`. -/
theorem disciplined_serve (t : AnoAtual) (u : Unpacked) (l : ServedList)
    (hget : u.msg.opcode = opGet → u.msg.cType = ctMarca) :
    Disciplined u.msg l.list (serve t u.msg l.list) := by
  by_cases hsize : u.msg.opcode = opSize
  · exact disciplined_size hsize l.counted
  by_cases hadd : u.msg.opcode = opAdd
  · exact disciplined_add hadd
  by_cases hg : u.msg.opcode = opGet
  · exact disciplined_get hg (hget hg)
  by_cases hyear : u.msg.opcode = opGetListByYear
  · exact disciplined_getListByYear hyear
  by_cases hmodels : u.msg.opcode = opGetModels
  · exact disciplined_getModels hmodels l.counted l.counter
  by_cases hdel : u.msg.opcode = opDel
  · exact disciplined_del hdel u.models
  rw [serve_other (by simp [hsize, hadd, hg, hyear, hmodels, hdel])]
  exact disciplined_error

/-- The forward that the client thread cannot get past. -/
def forwardFails (next : Bool) (resp : Option MessageT) (msg : MessageT) : Bool :=
  needsForward msg && next && resp.isNone

theorem afterForward_forwardCode (t : AnoAtual) (next : Bool) (resp : Option MessageT)
    (msg : MessageT) (list : ListT) : afterForward t (forwardCode next resp msg) msg list =
      if forwardFails next resp msg then ({ msg with opcode := opError, result := -1 }, list)
      else serve t msg list := by
  rw [forwardCode, forwardFails]
  cases needsForward msg <;> cases next <;> cases resp <;> rfl

theorem not_needsForward_of_get (h : msg.opcode = opGet) : needsForward msg = false := by
  rw [needsForward, h]
  rfl

/-- A request that leaves the message as it came gets no reply of either kind. -/
theorem not_disciplined_self (h : msg.opcode = opGet) : ¬ Disciplined msg list (msg, list) := by
  rintro (hs | ⟨he, -⟩)
  · have hop := hs.opcode
    dsimp only at hop
    omega
  · have hop := he.opcode
    rw [h] at hop
    cases hop

theorem not_disciplined_forward (hf : needsForward msg = true) (hct : msg.cType ≠ ctNone) :
    ¬ Disciplined msg list ({ msg with opcode := opError, result := -1 }, list) := by
  rintro (hs | ⟨he, -⟩)
  · have hop : opError = msg.opcode + 1 := hs.opcode
    simp only [needsForward, Bool.or_eq_true, decide_eq_true_eq] at hf
    simp only [opAdd, opDel, opOrder, opError] at hf hop
    omega
  · exact hct he.cType

theorem disciplined_iff (t : AnoAtual) (next : Bool) (resp : Option MessageT) (u : Unpacked)
    (l : ServedList) : Disciplined u.msg l.list
        (afterForward t (forwardCode next resp u.msg) u.msg l.list) ↔
      (u.msg.opcode = opGet → u.msg.cType = ctMarca) ∧
        (forwardFails next resp u.msg = true → u.msg.cType = ctNone) := by
  rw [afterForward_forwardCode]
  by_cases hf : forwardFails next resp u.msg = true
  · have hneeds : needsForward u.msg = true := by
      rw [forwardFails, Bool.and_assoc, Bool.and_eq_true] at hf
      exact hf.1
    have hget : u.msg.opcode ≠ opGet := fun hg => by
      rw [not_needsForward_of_get hg] at hneeds
      cases hneeds
    rw [if_pos hf]
    constructor
    · intro h
      refine ⟨fun hg => absurd hg hget, fun _ => ?_⟩
      by_contra hct
      exact not_disciplined_forward hneeds hct h
    · rintro ⟨-, hct⟩
      exact .inr ⟨⟨rfl, hct hf, rfl⟩, rfl⟩
  · rw [if_neg hf]
    constructor
    · intro h
      refine ⟨fun hg => ?_, fun hf' => absurd hf' hf⟩
      by_contra hct
      have hserve : serve t u.msg l.list = (invokeGet u.msg l.list).2 := by
        rw [serve, invoke, hg]
        rfl
      rw [hserve, invokeGet, if_neg hct] at h
      exact not_disciplined_self hg h
    · rintro ⟨hget, -⟩
      exact disciplined_serve t u l hget

theorem regular_iff {next : Bool} {resp : Option MessageT} : Regular next resp msg ↔
    (msg.opcode = opDel → msg.nModels ≠ 0) ∧ (msg.opcode = opGet → msg.cType = ctMarca) ∧
      (forwardFails next resp msg = true → msg.cType = ctNone) := by
  simp only [forwardFails, Bool.and_eq_true, Option.isNone_iff_eq_none, and_imp]
  exact ⟨fun h => ⟨h.del, h.get, h.forward⟩, fun h => ⟨h.1, h.2.1, h.2.2⟩⟩

/-- A request is answered with its success reply, or with the error reply on an
unchanged list, exactly if it is regular. -/
theorem replies_iff (t : AnoAtual) (next : Bool) (resp : Option MessageT) (u : Unpacked)
    (l : ServedList) : Replies t next resp u l ↔ Regular next resp u.msg := by
  rw [regular_iff, ← disciplined_iff t next resp u l]
  constructor
  · rintro ⟨p, list, m, rc, hhandle, hread, hm⟩
    have hdel := (handle_safe_iff t next resp u l.toBuiltList).mp ⟨_, hhandle⟩
    obtain ⟨q, n, hq, hn, hval⟩ := handle_computes t next resp hdel l.counted
    obtain ⟨rfl, rfl, -⟩ : p = q ∧ list = _ ∧ rc = _ := by
      simpa using hhandle.symm.trans hq
    obtain rfl : m = n := Except.ok.inj (hread.symm.trans hn)
    rw [hval l.counter] at hm
    exact ⟨hdel, hm⟩
  · rintro ⟨hdel, hdisc⟩
    obtain ⟨p, m, hp, hm, hval⟩ := handle_computes t next resp hdel l.counted
    refine ⟨p, _, m, _, hp, hm, ?_⟩
    rw [hval l.counter]
    exact hdisc

def unanswered : Unpacked :=
  ⟨ClientStub.toyotaRequest 2020, rfl, rfl, by
    simp [ClientStub.toyotaRequest, ClientStub.toyotaData, MessageT.init]⟩

def noCars : ServedList := ⟨⟨listCreate, rfl⟩, by decide⟩

/-- The reply to it is an error of the type `CT_DATA`. -/
theorem unanswered_keeps_type : ¬ Replies (.same 2026) true none unanswered noCars := by
  rintro ⟨p, list, m, rc, hhandle, hread, hm⟩
  obtain rfl : { unanswered.inMemory with opcode := opError, result := -1 } = p :=
    congrArg Prod.fst (Except.ok.inj hhandle)
  obtain rfl := Except.ok.inj hread
  obtain hs | ⟨he, -⟩ := hm
  · have hop : opError = opAdd + 1 := hs.opcode
    cases hop
  · have hct : ctData = ctNone := he.cType
    cases hct

end ListServer.ReplyDiscipline
