import ListServer.ClientCommands
import ListServer.Clocks
import ListServer.RemoteCalls
import ListServer.Lib.Transducer

namespace ListServer.Terminal

open Lib.CTypes Lib.Decimal Lib.Pointer Lib.Transducer CarData CarList Message Skeleton
open ClientThread ClientStub Forwarding Clocks ListTransfer StoredCars PackedSize ClientCommands
open RemoteCalls

abbrev Text := List UInt8

def text (s : String) : Text := s.toUTF8.toList

/-- What the user sees of the `%u` of an enumeration. -/
def formatU (x : Int) : Text := numeral (x % 2 ^ 32).toNat

section Print

variable (formatF : Single → Text)

def printCar (car : DataT) : Text :=
  text "Modelo: " ++ car.modelo.bytes ++ text " \nAno: " ++ formatD car.ano ++ text " \nPreco: " ++
    formatF car.preco ++ text " \nMarca: " ++ formatU car.marca ++ text "\nCombustivel: " ++
    formatU car.combustivel ++ text "\n"

/-- What `main` prints of the result of a call. -/
def printAnswer : Call → Answer → Text
  | .add _, .code rc =>
    if rc = 0 then text "Carro adicionado com sucesso.\n" else text "Falha ao adicionar carro\n"
  | .removeByModel _, .code rc =>
    if rc = 0 then text "Removido com sucesso\n"
    else if rc = 1 then text "Modelo nao encontrado\n"
    else text "Erro a remover\n"
  | .getByMarca _, .car none => text "Carro não encontrado.\n"
  | .getByMarca _, .car (some car) => printCar formatF car
  | .getByYear _, .cars none => text "Nenhum carro encontrado com o ano especificado.\n"
  | .getByYear _, .cars (some cars) => cars.flatMap (printCar formatF)
  | .orderByYear, .code rc => if rc ≠ 0 then text "Nenhum carro encontrado.\n" else []
  | .size, .code rc =>
    if rc = -1 then text "Erro ao obter número de carros na lista\n"
    else text "List size: " ++ formatD rc ++ text "\n"
  | .getModelList, .models none => text "Erro a obter lista de modelos\n"
  | .getModelList, .models (some models) =>
    models.flatMap fun m => text "Modelo: " ++ m.bytes ++ text "\n"
  | _, _ => []

/-- The cars that `rlist_order_by_year` prints itself. -/
def orderedCars (anoAtual : Int) (res : Option MessageT) : List DataT :=
  match res with
  | none => []
  | some res =>
    if !success (some res) opGetListByYear ctList then []
    else if res.nCars = 0 then []
    else (createAll anoAtual (res.cars.take res.nCars)).getD []

def printByStub (anoAtual : Int) (q : Call) (res : Option MessageT) : Text :=
  if q = .orderByYear then (orderedCars anoAtual res).flatMap (printCar formatF) else []

end Print

def cmdHelpText : Text :=
  text "Comandos disponíveis: \n" ++
  text "  add <modelo> <ano> <preco> <marca:0-4> <combustivel:0-3> \n" ++
  text "  remove <modelo> \n" ++
  text "  get_by_marca <marca:0-4> \n" ++
  text "  get_by_year <ano> \n" ++
  text "  get_list_ordered_by_year \n" ++
  text "  size \n" ++
  text "  get_model_list \n" ++
  text "  help \n" ++
  text "  quit \n"

def usage (cmd : CString) : Text :=
  if cmd = cmdAdd then text "Uso: add <modelo> <ano> <preco> <marca:0-4> <combustivel:0-3>\n"
  else if cmd = cmdRemove then text "Uso: remove <modelo>\n"
  else if cmd = cmdGetByMarca then text "Uso: get_by_marca <marca:0-4>\n"
  else text "Uso: get_by_year <ano>\n"

def firstToken (input : CString) : CString :=
  ((strtok (input.takeWhile fun b => decide (b ≠ 10))).map Prod.fst).getD .empty

def prompt : Text := text "Command: "

/-- What the loop of `main` does with a line: it ends, prints something, or
makes a call. -/
inductive Plan
  | stop
  | say (out : Text)
  | ask (q : Call)

def plan (anoAtual : Int) (strtof : CString → Single) (input : CString) : Plan :=
  match command anoAtual strtof input with
  | .quit => .stop
  | .nothing => .say []
  | .help => .say cmdHelpText
  | .usage => .say (usage (firstToken input))
  | .invalid => .say (text "Comando inválido. Escreve 'help' para ajuda. \n")
  | .call q => .ask q

structure Servers where
  head : Replica
  below : List Replica

def Servers.all (c : Servers) : List Replica := c.head :: c.below

def Servers.tail (c : Servers) : Replica := c.all.getLast (List.cons_ne_nil _ _)

def Servers.setTail (c : Servers) (u : Replica) : Servers :=
  match c.below with
  | [] => ⟨u, []⟩
  | _ :: _ => ⟨c.head, c.below.dropLast ++ [u]⟩

/-- A server with the servers below it takes a request that no link loses. They
hand it on as it has arrived. -/
def handle (msg : MessageT) (s : Replica) (below : List Replica) : MessageT × Servers :=
  if needsForward msg then
    let o := clientThread msg (fun _ => .ok) s below
    (o.reply, ⟨o.server, o.below⟩)
  else
    let p := serve s.ano msg s.list
    (p.1, ⟨{ s with list := p.2 }, below⟩)

def exchange (atHead : Bool) (msg : MessageT) (c : Servers) : Option MessageT × Servers :=
  if messageTGetPackedSize msg = 0 ∨ messageTGetPackedSize msg > 0xFFFF then (none, c)
  else if atHead then
    let (resp, c) := handle (overWire msg) c.head c.below
    (if networkSend resp = 0 then some (overWire resp) else none, c)
  else
    let (resp, u) := handle (overWire msg) c.tail []
    (if networkSend resp = 0 then some (overWire resp) else none, c.setTail u.head)

section Session

variable (formatF : Single → Text) (strtof : CString → Single) (anoAtual : Int)

def remoteCommand (q : Call) (c : Servers) : Except Fault (Text × Servers) :=
  match q.message with
  | none => .ok (printAnswer formatF q (gaveUp q), c)
  | some msg =>
    let (res, c) := exchange q.atHead msg c
    (result anoAtual res q).map fun answer =>
      (printByStub formatF anoAtual q res ++ printAnswer formatF q answer, c)

/-- A command on a list at hand. An order, also one asked for by the
year -1, shows the list and leaves it in that order. -/
def localCommand (q : Call) (list : ListT) : Text × ListT :=
  match q with
  | .orderByYear =>
    (if list.head = [] then text "Nenhum carro encontrado.\n"
      else (listOrderByYear list).head.flatMap (printCar formatF), listOrderByYear list)
  | .getByYear year =>
    if year = -1 then
      (printAnswer formatF q (.cars (arrayOrNull (listGetAll (listOrderByYear list)))),
        listOrderByYear list)
    else (printAnswer formatF q (localCall anoAtual q list).1, list)
  | _ => (printAnswer formatF q (localCall anoAtual q list).1, (localCall anoAtual q list).2)

def remoteTurn (c : Servers) (input : CString) : Except Fault (Option (Text × Servers)) :=
  match plan anoAtual strtof input with
  | .stop => .ok none
  | .say out => .ok (some (out ++ prompt, c))
  | .ask q => (remoteCommand formatF anoAtual q c).map fun p => some (p.1 ++ prompt, p.2)

def localTurn (list : ListT) (input : CString) : Option (Text × ListT) :=
  match plan anoAtual strtof input with
  | .stop => none
  | .say out => some (out ++ prompt, list)
  | .ask q =>
    let p := localCommand formatF anoAtual q list
    some (p.1 ++ prompt, p.2)

/-- What `main` prints for the lines that the user types. -/
def remoteSession (c : Servers) (lines : List CString) : Except Fault (Text × Servers) :=
  (transduce (remoteTurn formatF strtof anoAtual) c lines).map fun p =>
    (cmdHelpText ++ prompt ++ p.1, p.2)

def localSession (list : ListT) (lines : List CString) : Text × ListT :=
  let p := outputs (localTurn formatF strtof anoAtual) list lines
  (cmdHelpText ++ prompt ++ p.1, p.2)

end Session

def Made (ano : Int) (list : ListT) : Prop :=
  ∃ ano' es s, Lib.Transition.run StoredCars.step (State.start ano') es = some s ∧
    s.list = list ∧ s.ano ≤ ano

section Lists

variable {ano : Int} {list : ListT} {formatF : Single → Text}

theorem Made.reached (h : Made ano list) (hmax : list.size ≤ intMax) : Reached ano list := ⟨h, hmax⟩

theorem made_create (ano : Int) : Made ano listCreate :=
  ⟨ano, [], State.start ano, rfl, rfl, le_refl ano⟩

theorem made_after (h : Made ano list) (msg : MessageT) :
    Made ano (after (.same ano) msg list) := by
  obtain ⟨ano', es, s, hrun, rfl, hle⟩ := h
  have hstep : StoredCars.step s ⟨.same ano, 0, msg⟩ =
      some ⟨ano, after (.same ano) msg s.list⟩ := if_pos ⟨hle, le_refl ano⟩
  refine ⟨ano', es ++ [⟨.same ano, 0, msg⟩], ⟨ano, after (.same ano) msg s.list⟩, ?_, rfl,
    le_refl ano⟩
  rw [Lib.Transition.run_append, hrun]
  simp [Lib.Transition.run, hstep]

/-- The frames of a command fit, no price is -0.0, and the counter is an `int`. -/
structure Fits (ano : Int) (list : ListT) (q : Call) : Prop where
  counter : list.size ≤ intMax
  price : ∀ car, q = .add car → SamePrice car.preco
  request : ∀ msg, q.message = some msg → messageTGetPackedSize msg ≤ 65535
  reply : ∀ msg, q.message = some msg → messageTGetPackedSize (reply (.same ano) msg list) ≤ 65535

theorem head_order_eq_nil (list : ListT) : (listOrderByYear list).head = [] ↔ list.head = [] := by
  rw [← List.length_eq_zero_iff, ← List.length_eq_zero_iff, (listOrderByYear_perm list).length_eq]

theorem order_reply (h : WellFormed ano list) :
    success (some (reply (.same ano) rlistOrderByYearRequest list)) opGetListByYear ctList = true ∧
    (reply (.same ano) rlistOrderByYearRequest list).nCars = (listOrderByYear list).head.length ∧
    createAll ano ((reply (.same ano) rlistOrderByYearRequest list).cars.take
      (reply (.same ano) rlistOrderByYearRequest list).nCars) =
      some (listOrderByYear list).head := by
  have heq : reply (.same ano) rlistOrderByYearRequest list = { rlistOrderByYearRequest with
      opcode := opGetListByYear + 1, cType := ctList,
      nCars := (listOrderByYear list).head.length,
      cars := (listOrderByYear list).head.map dataToProtobuf } := rfl
  refine ⟨rfl, rfl, ?_⟩
  rw [heq, List.take_of_length_le (by simp)]
  exact createAll_valid (wellFormed_order h).valid

/-- What a client shows of a reply, and the list behind it, are those of the
local command. -/
def Shown (formatF : Single → Text) (ano : Int) (list : ListT) (q : Call) (msg : MessageT) : Prop :=
  let res := some (reply (.same ano) msg list)
  (result ano res q).map (fun answer =>
    (printByStub formatF ano q res ++ printAnswer formatF q answer, after (.same ano) msg list)) =
      .ok (localCommand formatF ano q list)

theorem shown_order (h : WellFormed ano list) :
    Shown formatF ano list .orderByYear rlistOrderByYearRequest := by
  obtain ⟨hsuccess, hn, hcars⟩ := order_reply h
  have hafter : after (.same ano) rlistOrderByYearRequest list = listOrderByYear list := rfl
  rw [Shown, hafter]
  generalize reply (.same ano) rlistOrderByYearRequest list = res at hsuccess hn hcars
  by_cases hnil : list.head = []
  · have hzero : res.nCars = 0 := by rw [hn, (head_order_eq_nil list).mpr hnil, List.length_nil]
    simp [result, rlistOrderByYearResult, hsuccess, deref, hzero, localCommand, hnil, printByStub,
      orderedCars, printAnswer, Except.map, pure, Except.pure, bind, Except.bind]
  · have hpos : res.nCars ≠ 0 := by
      rw [hn]
      exact fun hz => hnil ((head_order_eq_nil list).mp (List.length_eq_zero_iff.mp hz))
    simp [result, rlistOrderByYearResult, hsuccess, deref, hpos, hcars, localCommand, hnil,
      printByStub, orderedCars, printAnswer, Except.map, pure, Except.pure, bind, Except.bind]

theorem shown_all (h : WellFormed ano list) :
    Shown formatF ano list (.getByYear (-1)) (rlistGetByYearRequest (-1)) := by
  obtain ⟨hsuccess, hn, hcars⟩ := order_reply h
  have hsame : rlistGetByYearRequest (-1) = rlistOrderByYearRequest := rfl
  have hafter : after (.same ano) rlistOrderByYearRequest list = listOrderByYear list := rfl
  rw [Shown, hsame, hafter]
  generalize reply (.same ano) rlistOrderByYearRequest list = res at hsuccess hn hcars
  have hshow : rlistGetByYearResult ano (some res) =
      .ok (arrayOrNull (listGetAll (listOrderByYear list))) := by
    by_cases hnil : (listOrderByYear list).head = []
    · have hzero : res.nCars = 0 := by rw [hn, hnil, List.length_nil]
      simp [rlistGetByYearResult, hsuccess, deref, hzero, arrayOrNull, listGetAll, hnil, pure,
        Except.pure, bind, Except.bind]
    · have hpos : res.nCars ≠ 0 := by
        rw [hn]
        exact fun hz => hnil (List.length_eq_zero_iff.mp hz)
      simp [rlistGetByYearResult, hsuccess, deref, hpos, hcars, arrayOrNull, listGetAll, hnil, pure,
        Except.pure, bind, Except.bind]
  have hresult : result ano (some res) (.getByYear (-1)) =
      .ok (.cars (arrayOrNull (listGetAll (listOrderByYear list)))) := by
    rw [result, hshow]
    rfl
  rw [hresult]
  rfl

theorem localCommand_eq (list : ListT) {q : Call} (horder : q ≠ .orderByYear)
    (hyear : q ≠ .getByYear (-1)) : localCommand formatF ano q list =
      (printAnswer formatF q (localCall ano q list).1, (localCall ano q list).2) := by
  cases q with
  | orderByYear => exact absurd rfl horder
  | getByYear year => exact if_neg fun he => hyear (congrArg Call.getByYear he)
  | add | removeByModel | getByMarca | size | getModelList => rfl

theorem shown_message {q : Call} {msg : MessageT} (h : Reached ano list)
    (hq : q.message = some msg) : Shown formatF ano list q msg := by
  by_cases horder : q = .orderByYear
  · subst horder
    obtain rfl := Option.some.inj hq
    exact shown_order h.wellFormed
  · by_cases hyear : q = .getByYear (-1)
    · subst hyear
      obtain rfl := Option.some.inj hq
      exact shown_all h.wellFormed
    · have hcall := transparent_message h horder hyear hq
      rw [Transparent] at hcall
      rw [Shown, localCommand_eq list horder hyear]
      generalize localCall ano q list = answered at hcall ⊢
      cases hres : result ano (some (reply (.same ano) msg list)) q with
      | error e =>
        rw [hres] at hcall
        cases hcall
      | ok answer =>
        rw [hres] at hcall
        obtain ⟨rfl, hafter⟩ := Prod.mk.inj (Except.ok.inj hcall)
        simp [printByStub, horder, Except.map, hafter]

end Lists

/-- The servers read the same year and hold the same models as the list, which is
that of the tail. -/
structure Related (ano : Int) (c : Servers) (list : ListT) : Prop where
  years : ∀ s ∈ c.all, s.ano = .same ano
  models : ∀ s ∈ c.all, models s.list = models list
  tail : c.tail.list = list
  made : Made ano list
  prices : ∀ car ∈ list.head, SamePrice car.preco

section Exchange

variable {ano : Int} {c : Servers} {list : ListT} {msg : MessageT}

theorem tail_mem (c : Servers) : c.tail ∈ c.all := List.getLast_mem _

theorem handle_write (hw : needsForward msg = true) (s : Replica) (below : List Replica) :
    handle msg s below = (reply s.ano msg s.list, ⟨execute msg s, below.map (execute msg)⟩) := by
  obtain ⟨hserver, hbelow, hreply⟩ := clientThread_ok msg s below
  rw [handle, if_pos hw]
  dsimp only
  rw [hserver, hbelow, hreply]

theorem handle_read (hr : needsForward msg = false) (s : Replica) (below : List Replica) :
    handle msg s below = (reply s.ano msg s.list, ⟨execute msg s, below⟩) := by
  rw [handle, hr]
  rfl

theorem all_setTail (c : Servers) (u : Replica) :
    (c.setTail u).all = c.all.dropLast ++ [u] := by
  obtain ⟨head, below⟩ := c
  cases below <;> rfl

theorem tail_setTail (c : Servers) (u : Replica) : (c.setTail u).tail = u := by
  have hlast : (c.setTail u).all.getLast? = some u := by rw [all_setTail, List.getLast?_concat]
  exact List.getLast_of_getLast?_eq_some hlast

theorem models_read (hr : needsForward msg = false) (t : AnoAtual) (list : ListT) :
    models (after t msg list) = models list := by
  rw [models_eq_map, models_eq_map, cars_after_read hr]

/-- All servers execute a write, and the reply of the head is the one that the
tail would give. -/
theorem exchange_head (h : Related ano c list) (hw : needsForward msg = true)
    (hmsg : Unaltered msg) (hresp : Unaltered (reply (.same ano) msg list))
    (hpos : 1 ≤ messageTGetPackedSize msg) (hreq : messageTGetPackedSize msg ≤ 65535)
    (hsend : networkSend (reply (.same ano) msg list) = 0) :
    ∃ c', exchange true msg c = (some (reply (.same ano) msg list), c') ∧
      Related ano c' (after (.same ano) msg list) := by
  have hfits : ¬ (messageTGetPackedSize msg = 0 ∨ messageTGetPackedSize msg > 0xFFFF) := by omega
  have hop : msg.opcode ∉ [opSize, opGet, opGetListByYear, opGetModels] := fun hop => by
    simp only [List.mem_cons, List.not_mem_nil, or_false] at hop
    obtain hop | hop | hop | hop := hop <;> rw [needsForward, hop] at hw <;> revert hw <;> decide
  have hhead : c.head ∈ c.all := List.mem_cons_self
  have hreply : reply c.head.ano msg c.head.list = reply (.same ano) msg list := by
    rw [h.years _ hhead]
    exact reply_congr hop _ (h.models _ hhead)
  refine ⟨⟨execute msg c.head, c.below.map (execute msg)⟩, ?_, ?_⟩
  · rw [exchange, if_neg hfits, if_pos rfl, hmsg.eq, handle_write hw]
    dsimp only
    rw [hreply, if_pos hsend, hresp.eq]
  · have hall : (⟨execute msg c.head, c.below.map (execute msg)⟩ : Servers).all =
        c.all.map (execute msg) := rfl
    have htail : (⟨execute msg c.head, c.below.map (execute msg)⟩ : Servers).tail =
        execute msg c.tail :=
      List.getLast_map (f := execute msg) (l := c.all) (List.cons_ne_nil _ _)
    refine ⟨fun s hs => ?_, fun s hs => ?_, ?_, made_after h.made msg,
      samePrice_after hmsg _ h.prices⟩
    · rw [hall] at hs
      obtain ⟨u, hu, rfl⟩ := List.mem_map.mp hs
      exact h.years u hu
    · rw [hall] at hs
      obtain ⟨u, hu, rfl⟩ := List.mem_map.mp hs
      rw [execute, h.years u hu]
      exact models_after_congr msg _ (h.models u hu)
    · rw [htail, execute, h.years _ (tail_mem c), h.tail]

theorem exchange_tail (h : Related ano c list) (hr : needsForward msg = false)
    (hmsg : Unaltered msg) (hresp : Unaltered (reply (.same ano) msg list))
    (hpos : 1 ≤ messageTGetPackedSize msg) (hreq : messageTGetPackedSize msg ≤ 65535)
    (hsend : networkSend (reply (.same ano) msg list) = 0) :
    ∃ c', exchange false msg c = (some (reply (.same ano) msg list), c') ∧
      Related ano c' (after (.same ano) msg list) := by
  have hfits : ¬ (messageTGetPackedSize msg = 0 ∨ messageTGetPackedSize msg > 0xFFFF) := by omega
  have hreply : reply c.tail.ano msg c.tail.list = reply (.same ano) msg list := by
    rw [h.years _ (tail_mem c), h.tail]
  refine ⟨c.setTail (execute msg c.tail), ?_, ?_⟩
  · rw [exchange, if_neg hfits, if_neg nofun, hmsg.eq, handle_read hr]
    dsimp only
    rw [hreply, if_pos hsend, hresp.eq]
  · have hmodels := models_read hr (.same ano) list
    have hfront : ∀ s ∈ c.all.dropLast, s ∈ c.all := fun s hs => List.dropLast_subset _ hs
    refine ⟨fun s hs => ?_, fun s hs => ?_, ?_, made_after h.made msg,
      samePrice_after hmsg _ h.prices⟩
    · rw [all_setTail, List.mem_append, List.mem_singleton] at hs
      obtain hs | rfl := hs
      · exact h.years s (hfront s hs)
      · exact h.years c.tail (tail_mem c)
    · rw [all_setTail, List.mem_append, List.mem_singleton] at hs
      rw [hmodels]
      obtain hs | rfl := hs
      · exact h.models s (hfront s hs)
      · rw [execute, h.years _ (tail_mem c), h.tail, hmodels]
    · rw [tail_setTail, execute, h.years _ (tail_mem c), h.tail]

end Exchange

section Session

variable {formatF : Single → Text} {strtof : CString → Single} {ano : Int} {c : Servers}
  {list : ListT}

theorem local_gaveUp {q : Call} (h : WellFormed ano list) (hq : q.message = none) :
    localCommand formatF ano q list = (printAnswer formatF q (gaveUp q), list) := by
  have horder : q ≠ .orderByYear := by
    rintro rfl
    cases hq
  have hyear : q ≠ .getByYear (-1) := by
    rintro rfl
    cases hq
  rw [localCommand_eq list horder hyear, ← gaveUp_eq_local h hq]

/-- A command shows what it would show of the tail's list. -/
theorem remote_command (h : Related ano c list) {q : Call} (hfit : Fits ano list q) :
    ∃ c', remoteCommand formatF ano q c = .ok ((localCommand formatF ano q list).1, c') ∧
      Related ano c' (localCommand formatF ano q list).2 := by
  have hreached := h.made.reached hfit.counter
  rw [remoteCommand]
  cases hq : q.message with
  | none =>
    rw [local_gaveUp hreached.wellFormed hq]
    exact ⟨c, rfl, h⟩
  | some msg =>
    have hstub : (Query.stub q).message = some msg := hq
    have hpos := messageTGetPackedSize_pos (message_opcode hstub)
    have hsend := (networkSend_eq_zero _).mpr
      ⟨reply_pos hreached hstub (.same ano), hfit.reply msg hq⟩
    have hshown : Shown formatF ano list q msg := shown_message hreached hq
    have hmsg := unaltered_message hq hfit.price
    have hresp := hmsg.reply (.same ano) hreached.wellFormed.size hfit.counter h.prices
    have hexchange : ∃ c', exchange q.atHead msg c = (some (reply (.same ano) msg list), c') ∧
        Related ano c' (after (.same ano) msg list) := by
      have hforward := needsForward_message hq
      cases hat : q.atHead with
      | true =>
        exact exchange_head h (hforward.trans hat) hmsg hresp hpos (hfit.request msg hq) hsend
      | false =>
        exact exchange_tail h (hforward.trans hat) hmsg hresp hpos (hfit.request msg hq) hsend
    obtain ⟨c', hc', hrelated⟩ := hexchange
    rw [Shown] at hshown
    cases hres : result ano (some (reply (.same ano) msg list)) q with
    | error e =>
      rw [hres] at hshown
      cases hshown
    | ok answer =>
      rw [hres] at hshown
      have hlocal := Except.ok.inj hshown
      refine ⟨c', ?_, ?_⟩
      · dsimp only
        rw [hc']
        dsimp only
        rw [hres, ← hlocal]
        rfl
      · rw [← hlocal]
        exact hrelated

theorem remote_turn (h : Related ano c list) {input : CString}
    (hfit : ∀ q, plan ano strtof input = .ask q → Fits ano list q) :
    Agrees (Related ano) (remoteTurn formatF strtof ano c input)
      (localTurn formatF strtof ano list input) := by
  rw [remoteTurn, localTurn]
  cases hplan : plan ano strtof input with
  | stop => rfl
  | say out => exact ⟨c, rfl, h⟩
  | ask q =>
    obtain ⟨c', (hremote : remoteCommand formatF ano q c = _), hrelated⟩ :=
      remote_command h (hfit q hplan)
    refine ⟨c', ?_, hrelated⟩
    dsimp only
    rw [hremote]
    rfl

end Session

def LineFits (strtof : CString → Single) (ano : Int) (list : ListT) (input : CString) : Prop :=
  ∀ q, plan ano strtof input = .ask q → Fits ano list q

instance : (q : Call) → Decidable (∀ car, q = .add car → SamePrice car.preco)
  | .add car => decidable_of_iff (SamePrice car.preco)
      ⟨fun h _ he => Call.add.inj he ▸ h, fun h => h car rfl⟩
  | .removeByModel _ | .getByMarca _ | .getByYear _ | .orderByYear | .size | .getModelList =>
    isTrue nofun

instance (ano : Int) (list : ListT) (q : Call) : Decidable (Fits ano list q) :=
  decidable_of_iff (list.size ≤ intMax ∧ (∀ car, q = .add car → SamePrice car.preco) ∧
      ∀ msg ∈ q.message, messageTGetPackedSize msg ≤ 65535 ∧
        messageTGetPackedSize (reply (.same ano) msg list) ≤ 65535)
    ⟨fun h => ⟨h.1, h.2.1, fun msg hm => (h.2.2 msg hm).1, fun msg hm => (h.2.2 msg hm).2⟩,
      fun h => ⟨h.counter, h.price, fun msg hm => ⟨h.request msg hm, h.reply msg hm⟩⟩⟩

instance (strtof : CString → Single) (ano : Int) (list : ListT) (input : CString) :
    Decidable (LineFits strtof ano list input) :=
  match hplan : plan ano strtof input with
  | .ask q => decidable_of_iff (Fits ano list q)
      ⟨fun h _ hq => Plan.ask.inj (hplan.symm.trans hq) ▸ h, fun h => h q hplan⟩
  | .stop => isTrue fun q hq => by rw [hplan] at hq; cases hq
  | .say _ => isTrue fun q hq => by rw [hplan] at hq; cases hq

end ListServer.Terminal
