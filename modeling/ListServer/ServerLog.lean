import ListServer.LogQueue
import ListServer.RequestSafety
import ListServer.Lib.Decimal
import ListServer.Lib.Fields
import ListServer.Lib.Footprint

namespace ListServer.ServerLog

open Lib.CTypes Lib.Decimal Lib.Fields Lib.Footprint Lib.Pointer Lib.Transition
open Message RequestSafety

abbrev Text := List UInt8

def ascii (s : String) : Text := s.toList.map byte

/-- The other end of a connection: the bytes of `sin_addr` and `sin_port`. -/
structure Peer where
  addr : UInt8 × UInt8 × UInt8 × UInt8
  port : UInt16
deriving DecidableEq

/-- `inet_ntop` for an IPv4 address. -/
def inetNtop : UInt8 × UInt8 × UInt8 × UInt8 → Text
  | (a, b, c, d) =>
    join 46 [formatD a.toNat, formatD b.toNat, formatD c.toNat, formatD d.toNat]

/-- `addrbuf`, where `getpeername` may fail. -/
def addrbuf : Option Peer → Text
  | none => ascii "UNKNOWN:0"
  | some peer => inetNtop peer.addr ++ 58 :: formatD peer.port.toNat

inductive EventType
  | connect
  | request
  | close
deriving DecidableEq

def etypeStr : EventType → Text
  | .connect => ascii "CONNECT"
  | .request => ascii "REQUEST"
  | .close => ascii "CLOSE"

/-- A call of `write_in_server_log` with the time and the peer that it finds. -/
structure Event where
  ts : Int
  peer : Option Peer
  eventType : EventType
  msg : Option MessagePtr

def content (e : Event) : Except Fault (Option (Option LogLine)) :=
  match e.msg with
  | none => .ok (some none)
  | some msg => (writeInServerLog msg).map fun line => line.map some

def modeloText (modelo : Option CString) : Text := modelo.elim (ascii "-") CString.bytes

section Format

variable (formatF : Single → CString)

def argWords : LogArgs → List Text
  | .add modelo ano preco marca comb =>
    [modeloText modelo, formatD ano, (formatF preco).bytes, formatD marca, formatD comb]
  | .del modelo => [modeloText modelo]
  | .number n => [formatD n]
  | .plain => []

def lineWords (e : Event) (line : Option LogLine) : List Text :=
  [formatD e.ts, addrbuf e.peer, etypeStr e.eventType] ++
    line.elim [] fun line => ascii line.opStr :: ascii line.ctStr :: argWords formatF line.args

/-- The string that `snprintf` makes. A price is printed with `%.2f`. -/
def finalLine (e : Event) : Except Fault (Option CString) :=
  (content e).map fun line => line.map fun line =>
    ofBytes (join 32 (lineWords formatF e line) ++ [10])

end Format

/-- What a line of the log tells of a request. -/
inductive Args
  | add (modelo : Text) (ano : Int) (preco : Text) (marca combustivel : Int)
  | del (modelo : Text)
  | number (n : Int)
  | plain
deriving DecidableEq

structure Entry where
  ts : Int
  addr : Text
  eventType : Text
  request : Option (Text × Text × Args)
deriving DecidableEq

def readInt (word : Text) : Option Int :=
  match scanInt word with
  | some (n, []) => some n
  | _ => none

/-- The model is what is left of the words before the last four. -/
def readAdd (words : List Text) : Option Args :=
  match words.reverse with
  | comb :: marca :: preco :: ano :: modelo => do
    return .add (join 32 modelo.reverse) (← readInt ano) preco (← readInt marca) (← readInt comb)
  | _ => none

def readNumber : List Text → Option Args
  | [] => some .plain
  | [n] => (readInt n).map .number
  | _ => none

def readArgs (opStr : Text) (words : List Text) : Option Args :=
  if opStr = ascii "OP_ADD" then readAdd words
  else if opStr = ascii "OP_DEL" then some (.del (join 32 words))
  else readNumber words

def readLine (line : Text) : Option Entry :=
  match line.splitOn 32 with
  | [ts, addr, eventType] => (readInt ts).map fun ts => ⟨ts, addr, eventType, none⟩
  | ts :: addr :: eventType :: opStr :: ctStr :: words => do
    return ⟨← readInt ts, addr, eventType, some (opStr, ctStr, ← readArgs opStr words)⟩
  | _ => none

/-- The log as somebody reads it who has only the file. -/
def readLog (file : Text) : List (Option Entry) := (records 10 file).map readLine

section Entries

variable (formatF : Single → CString)

def argsOf : LogArgs → Args
  | .add modelo ano preco marca comb =>
    .add (modeloText modelo) ano (formatF preco).bytes marca comb
  | .del modelo => .del (modeloText modelo)
  | .number n => .number n
  | .plain => .plain

def entryOf (e : Event) (line : Option LogLine) : Entry :=
  ⟨e.ts, addrbuf e.peer, etypeStr e.eventType,
    line.map fun line => (ascii line.opStr, ascii line.ctStr, argsOf formatF line.args)⟩

def entries (e : Event) : List Entry :=
  match content e with
  | .ok (some line) => [entryOf formatF e line]
  | _ => []

end Entries

def LogArgs.modelo : LogArgs → Option CString
  | .add modelo _ _ _ _ => modelo
  | .del modelo => modelo
  | .number _ | .plain => none

def OneLine (e : Event) : Prop :=
  ∀ line m, content e = .ok (some (some line)) → LogArgs.modelo line.args = some m → 10 ∉ m.bytes

section Words

def Word (w : Text) : Prop := ∀ b ∈ w, b ≠ 32 ∧ b ≠ 10 ∧ b ≠ 0

instance (w : Text) : Decidable (Word w) :=
  List.decidableBAll (fun b => b ≠ 32 ∧ b ≠ 10 ∧ b ≠ 0) w

theorem word_append {v w : Text} (hv : Word v) (hw : Word w) : Word (v ++ w) := fun b hb =>
  (List.mem_append.mp hb).elim (hv b) (hw b)

theorem word_formatD (x : Int) : Word (formatD x) := by
  intro b hb
  obtain rfl | hdigit := mem_formatD hb
  · decide
  · refine ⟨?_, ?_, formatD_ne_zero x b hb⟩ <;> rintro rfl <;> cases hdigit

theorem word_addrbuf (peer : Option Peer) : Word (addrbuf peer) := by
  cases peer with
  | none => exact (by decide : Word (ascii "UNKNOWN:0"))
  | some peer =>
    have hdot : Word [46] := by decide
    have hcolon : Word [58] := by decide
    have haddr : Word (inetNtop peer.addr) := by
      simp only [inetNtop, join, List.intercalate_cons_cons, List.intercalate_singleton]
      exact word_append (word_append (word_formatD _) hdot) (word_append (word_append
        (word_formatD _) hdot) (word_append (word_append (word_formatD _) hdot) (word_formatD _)))
    rw [addrbuf, ← List.singleton_append]
    exact word_append haddr (word_append hcolon (word_formatD _))

theorem word_etypeStr (t : EventType) : Word (etypeStr t) := by
  cases t <;> exact of_decide_eq_true rfl

theorem word_ite {p : Prop} [Decidable p] {s t : String} (hs : Word (ascii s))
    (ht : Word (ascii t)) : Word (ascii (if p then s else t)) := by
  split
  · exact hs
  · exact ht

theorem word_opStr (opcode : Int) : Word (ascii (opStr opcode)) := by
  rw [opStr]
  iterate 10 refine word_ite (by decide) ?_
  decide

theorem word_ctStr (cType : Int) : Word (ascii (ctStr cType)) := by
  rw [ctStr]
  iterate 7 refine word_ite (by decide) ?_
  decide

/-- `addrbuf` has room for every peer. -/
theorem length_addrbuf (peer : Option Peer) : (addrbuf peer).length < 64 := by
  cases peer with
  | none => decide
  | some peer =>
    have hbyte : ∀ b : UInt8, (formatD b.toNat).length ≤ 4 := fun b =>
      length_formatD (by decide) (Nat.lt_of_lt_of_le b.toNat_lt (by decide))
    obtain ⟨⟨a, b, c, d⟩, port⟩ := peer
    have hport : (formatD port.toNat).length ≤ 6 :=
      length_formatD (by decide) (Nat.lt_of_lt_of_le port.toNat_lt (by decide))
    have ha := hbyte a
    have hb := hbyte b
    have hc := hbyte c
    have hd := hbyte d
    simp only [addrbuf, inetNtop, join, List.intercalate_cons_cons, List.intercalate_singleton,
      List.length_append, List.length_cons, List.length_nil]
    omega

theorem readInt_formatD (x : Int) : readInt (formatD x) = some x := by
  have hread := scanInt_formatD [] nofun x
  rw [List.append_nil] at hread
  rw [readInt, hread]

end Words

section Lines

variable {formatF : Single → CString} {e : Event} {msg : MessagePtr} {line : LogLine}

def Fits (line : LogLine) : Prop :=
  match line.args with
  | .add .. => line.opStr = "OP_ADD"
  | .del _ => line.opStr = "OP_DEL"
  | .number _ | .plain =>
    ascii line.opStr ≠ ascii "OP_ADD" ∧ ascii line.opStr ≠ ascii "OP_DEL"

theorem opStr_read : ∀ opcode ∈ [opGet, opGetListByYear, opGetModels, opSize],
    ascii (opStr opcode) ≠ ascii "OP_ADD" ∧ ascii (opStr opcode) ≠ ascii "OP_DEL" := by
  decide

theorem fits_writeInServerLog (h : writeInServerLog msg = .ok (some line)) :
    Fits line ∧ Word (ascii line.opStr) ∧ Word (ascii line.ctStr) := by
  have hwords := And.intro (word_opStr msg.opcode) (word_ctStr msg.cType)
  rw [writeInServerLog] at h
  split_ifs at h with hadd hdel hnum hplain
  · obtain ⟨modelo, -, h⟩ := bind_eq_ok.mp h
    obtain ⟨marca, -, h⟩ := bind_eq_ok.mp h
    obtain ⟨comb, -, h⟩ := bind_eq_ok.mp h
    obtain ⟨ano, -, h⟩ := bind_eq_ok.mp h
    obtain ⟨preco, -, h⟩ := bind_eq_ok.mp h
    obtain rfl := Option.some.inj (Except.ok.inj h)
    exact ⟨congrArg opStr hadd, hwords⟩
  · obtain ⟨mode, -, h⟩ := bind_eq_ok.mp h
    obtain rfl := Option.some.inj (Except.ok.inj h)
    exact ⟨congrArg opStr hdel, hwords⟩
  · obtain rfl := Option.some.inj (Except.ok.inj h)
    refine ⟨opStr_read msg.opcode ?_, hwords⟩
    obtain hop | hop := hnum <;> simp [hop]
  · obtain rfl := Option.some.inj (Except.ok.inj h)
    refine ⟨opStr_read msg.opcode ?_, hwords⟩
    obtain hop | hop := hplain <;> simp [hop]
  · cases Except.ok.inj h

theorem readArgs_add (words : List Text) : readArgs (ascii "OP_ADD") words = readAdd words :=
  if_pos rfl

theorem readArgs_del (words : List Text) :
    readArgs (ascii "OP_DEL") words = some (.del (join 32 words)) := by
  rw [readArgs, if_neg (by decide), if_pos rfl]

theorem readAdd_words (modelo : Text) (ano marca comb : Int) (preco : Text) :
    readAdd (modelo.splitOn 32 ++ [formatD ano, preco, formatD marca, formatD comb]) =
      some (.add modelo ano preco marca comb) := by
  rw [readAdd, List.reverse_append]
  simp [readInt_formatD, List.intercalate_splitOn]

theorem not_mem_of_word {w : Text} (h : Word w) : 32 ∉ w ∧ 10 ∉ w ∧ 0 ∉ w :=
  ⟨fun hm => (h 32 hm).1 rfl, fun hm => (h 10 hm).2.1 rfl, fun hm => (h 0 hm).2.2 rfl⟩

theorem word_start (e : Event) :
    ∀ w ∈ [formatD e.ts, addrbuf e.peer, etypeStr e.eventType], Word w := by
  simp only [List.forall_mem_cons, List.not_mem_nil, false_imp_iff, implies_true, and_true]
  exact ⟨word_formatD e.ts, word_addrbuf e.peer, word_etypeStr e.eventType⟩

theorem splitOn_lineWords (hf : ∀ x, Word (formatF x).bytes)
    (h : Fits line ∧ Word (ascii line.opStr) ∧ Word (ascii line.ctStr)) :
    ∃ words, (join 32 (lineWords formatF e (some line))).splitOn 32 =
        formatD e.ts :: addrbuf e.peer :: etypeStr e.eventType :: ascii line.opStr ::
          ascii line.ctStr :: words ∧
      readArgs (ascii line.opStr) words = some (argsOf formatF line.args) := by
  obtain ⟨hfits, hop, hct⟩ := h
  have hfront : ∀ w ∈ [formatD e.ts, addrbuf e.peer, etypeStr e.eventType, ascii line.opStr,
      ascii line.ctStr], 32 ∉ w := by
    intro w hw
    simp only [List.mem_cons, List.not_mem_nil, or_false] at hw
    obtain rfl | rfl | rfl | rfl | rfl := hw
    · exact (not_mem_of_word (word_formatD e.ts)).1
    · exact (not_mem_of_word (word_addrbuf e.peer)).1
    · exact (not_mem_of_word (word_etypeStr e.eventType)).1
    · exact (not_mem_of_word hop).1
    · exact (not_mem_of_word hct).1
  obtain ⟨opStr, ctStr, args⟩ := line
  cases args with
  | add modelo ano preco marca comb =>
    obtain rfl : opStr = "OP_ADD" := hfits
    have hback : ∀ w ∈ [formatD ano, (formatF preco).bytes, formatD marca, formatD comb],
        32 ∉ w := by
      intro w hw
      simp only [List.mem_cons, List.not_mem_nil, or_false] at hw
      obtain rfl | rfl | rfl | rfl := hw
      · exact (not_mem_of_word (word_formatD ano)).1
      · exact (not_mem_of_word (hf preco)).1
      · exact (not_mem_of_word (word_formatD marca)).1
      · exact (not_mem_of_word (word_formatD comb)).1
    exact ⟨_, splitOn_join hfront hback (modeloText modelo), (readArgs_add _).trans
      (readAdd_words (modeloText modelo) ano marca comb (formatF preco).bytes)⟩
  | del modelo =>
    obtain rfl : opStr = "OP_DEL" := hfits
    have hmodelo : join 32 ((modeloText modelo).splitOn 32 ++ []) = modeloText modelo := by
      rw [List.append_nil, join, List.intercalate_splitOn]
    exact ⟨_, splitOn_join hfront (List.forall_mem_nil _) (modeloText modelo),
      (readArgs_del _).trans (congrArg (fun m => some (Args.del m)) hmodelo)⟩
  | number n =>
    refine ⟨[formatD n], ?_, ?_⟩
    · have hn : 32 ∉ formatD n := (not_mem_of_word (word_formatD n)).1
      refine (splitOn_join hfront (List.forall_mem_nil _) (formatD n)).trans ?_
      rw [List.splitOn_eq_singleton hn]
      rfl
    · rw [readArgs, if_neg hfits.1, if_neg hfits.2, readNumber, readInt_formatD]
      rfl
  | plain =>
    refine ⟨[], List.splitOn_intercalate 32 hfront (List.cons_ne_nil _ _), ?_⟩
    rw [readArgs, if_neg hfits.1, if_neg hfits.2]
    rfl

theorem readLine_none (formatF : Single → CString) (e : Event) :
    readLine (join 32 (lineWords formatF e none)) = some (entryOf formatF e none) := by
  have hsplit : (join 32 (lineWords formatF e none)).splitOn 32 = _ :=
    List.splitOn_intercalate 32 (fun w hw => (not_mem_of_word (word_start e w hw)).1)
      (List.cons_ne_nil _ _)
  rw [readLine, hsplit]
  simp [lineWords, readInt_formatD, entryOf]

theorem readLine_some (hf : ∀ x, Word (formatF x).bytes)
    (h : Fits line ∧ Word (ascii line.opStr) ∧ Word (ascii line.ctStr)) :
    readLine (join 32 (lineWords formatF e (some line))) =
      some (entryOf formatF e (some line)) := by
  obtain ⟨words, hsplit, hargs⟩ := splitOn_lineWords (e := e) hf h
  rw [readLine, hsplit]
  simp [readInt_formatD, hargs, entryOf]

def breaks (line : Option LogLine) : Nat :=
  ((line.bind fun line => LogArgs.modelo line.args).map fun m => m.bytes.count 10).getD 0

theorem count_word {w : Text} (h : Word w) : w.count 10 = 0 :=
  List.count_eq_zero.mpr (not_mem_of_word h).2.1

theorem count_modeloText (modelo : Option CString) :
    (modeloText modelo).count 10 = (modelo.map fun m => m.bytes.count 10).getD 0 := by
  cases modelo <;> rfl

theorem count_argWords (hf : ∀ x, Word (formatF x).bytes) (args : LogArgs) :
    ((argWords formatF args).map (List.count 10)).sum =
      ((LogArgs.modelo args).map fun m => m.bytes.count 10).getD 0 := by
  cases args with
  | add modelo ano preco marca comb =>
    simp [argWords, count_word (word_formatD _), count_word (hf _), count_modeloText,
      LogArgs.modelo]
  | del modelo => simp [argWords, count_modeloText, LogArgs.modelo]
  | number n => simp [argWords, count_word (word_formatD n), LogArgs.modelo]
  | plain => rfl

theorem count_lineWords (hf : ∀ x, Word (formatF x).bytes) {line : Option LogLine}
    (h : ∀ l, line = some l → Word (ascii l.opStr) ∧ Word (ascii l.ctStr)) :
    (join 32 (lineWords formatF e line)).count 10 = breaks line := by
  have hstart := word_start e
  rw [count_join (by decide), lineWords, List.map_append, List.sum_append]
  cases line with
  | none => simp [count_word (hstart _ _), breaks]
  | some line =>
    obtain ⟨hop, hct⟩ := h line rfl
    simp [count_word (hstart _ _), count_word hop, count_word hct, count_argWords hf, breaks]

theorem nonzero_argWords (hf : ∀ x, Word (formatF x).bytes) {args : LogArgs} :
    ∀ w ∈ argWords formatF args, 0 ∉ w := by
  have hnumber : ∀ x, 0 ∉ formatD x := fun x => (not_mem_of_word (word_formatD x)).2.2
  have hmodelo : ∀ modelo, 0 ∉ modeloText modelo := by
    rintro (_ | m)
    · exact (not_mem_of_word (by decide : Word (ascii "-"))).2.2
    · exact fun h => m.nonzero 0 h rfl
  cases args with
  | add modelo ano preco marca comb =>
    simp [argWords, hnumber, hmodelo, (not_mem_of_word (hf preco)).2.2]
  | del modelo => simp [argWords, hmodelo]
  | number n => simp [argWords, hnumber]
  | plain => simp [argWords]

theorem bytes_ofBytes_line (hf : ∀ x, Word (formatF x).bytes) {line : Option LogLine}
    (h : ∀ l, line = some l → Word (ascii l.opStr) ∧ Word (ascii l.ctStr)) :
    (ofBytes (join 32 (lineWords formatF e line) ++ [10])).bytes =
      join 32 (lineWords formatF e line) ++ [10] := by
  have hwords : ∀ w ∈ lineWords formatF e line, 0 ∉ w := by
    intro w hw
    obtain hw | hw := List.mem_append.mp hw
    · exact (not_mem_of_word (word_start e w hw)).2.2
    · cases line with
      | none => cases hw
      | some line =>
        obtain ⟨hop, hct⟩ := h line rfl
        simp only [Option.elim_some, List.mem_cons] at hw
        obtain rfl | rfl | hw := hw
        · exact (not_mem_of_word hop).2.2
        · exact (not_mem_of_word hct).2.2
        · exact nonzero_argWords hf w hw
  refine List.takeWhile_eq_self_iff.mpr fun b hb => decide_eq_true ?_
  rintro rfl
  obtain hb | hb := List.mem_append.mp hb
  · obtain hb | ⟨w, hw, hb⟩ := mem_join hb
    · cases hb
    · exact hwords w hw hb
  · cases List.mem_singleton.mp hb

theorem content_fits {line : Option LogLine} (h : content e = .ok (some line)) :
    ∀ l, line = some l → Fits l ∧ Word (ascii l.opStr) ∧ Word (ascii l.ctStr) := by
  rintro l rfl
  rw [content] at h
  split at h
  next => cases Option.some.inj (Except.ok.inj h)
  next =>
    obtain ⟨written, hwritten, hmap⟩ := map_eq_ok.mp h
    obtain ⟨l', rfl, hl⟩ := Option.map_eq_some_iff.mp hmap
    exact Option.some.inj hl ▸ fits_writeInServerLog hwritten

end Lines

section Read

variable {formatF : Single → CString} {e : Event} {es : List Event}

def eventText (formatF : Single → CString) (e : Event) : Text :=
  match content e with
  | .ok (some line) => join 32 (lineWords formatF e line) ++ [10]
  | _ => []

def breaksOf (e : Event) : Nat :=
  match content e with
  | .ok (some line) => breaks line
  | _ => 0

theorem text_finalLine (hf : ∀ x, Word (formatF x).bytes) {str : Option CString}
    (h : finalLine formatF e = .ok str) : LogQueue.text str = eventText formatF e := by
  obtain ⟨line, hline, rfl⟩ := map_eq_ok.mp h
  rw [eventText, hline]
  cases line with
  | none => rfl
  | some line =>
    exact bytes_ofBytes_line hf fun l hl => (content_fits hline l hl).2

/-- The records of the log: a line break in a model makes one more. -/
theorem count_eventText (hf : ∀ x, Word (formatF x).bytes) (e : Event) :
    (eventText formatF e).count 10 = (entries formatF e).length + breaksOf e := by
  rw [eventText, entries, breaksOf]
  cases hc : content e with
  | error => rfl
  | ok line =>
    cases line with
    | none => rfl
    | some line =>
      have hcount := count_lineWords (e := e) hf fun l hl => (content_fits hc l hl).2
      simp only [List.count_append, hcount, List.count_singleton_self, List.length_singleton]
      omega

theorem oneLine_iff : OneLine e ↔ breaksOf e = 0 := by
  rw [OneLine, breaksOf]
  cases hc : content e with
  | error => simp
  | ok line =>
    rcases line with _ | _ | line
    · simp
    · simp [breaks]
    · have hbreaks : breaks (some line) = 0 ↔
          ∀ m, LogArgs.modelo line.args = some m → 10 ∉ m.bytes := by
        cases hm : LogArgs.modelo line.args with
        | none => simp [breaks, hm]
        | some m => simp [breaks, hm, List.count_eq_zero]
      refine Iff.trans ⟨fun h m => h line m rfl, fun h l m hl => ?_⟩ hbreaks.symm
      obtain rfl := Option.some.inj (Option.some.inj (Except.ok.inj hl))
      exact h m

theorem readLog_eventText (hf : ∀ x, Word (formatF x).bytes) (h : breaksOf e = 0) (rest : Text) :
    readLog (eventText formatF e ++ rest) = (entries formatF e).map some ++ readLog rest := by
  rw [breaksOf] at h
  rw [eventText, entries]
  cases hc : content e with
  | error => rfl
  | ok line =>
    cases line with
    | none => rfl
    | some line =>
      simp only [hc] at h
      have hfits := content_fits hc
      have hone : 10 ∉ join 32 (lineWords formatF e line) := by
        rw [← List.count_eq_zero, count_lineWords hf fun l hl => (hfits l hl).2, h]
      have hread : readLine (join 32 (lineWords formatF e line)) =
          some (entryOf formatF e line) := by
        cases line with
        | none => exact readLine_none formatF e
        | some line => exact readLine_some hf (hfits line rfl)
      simp only [List.append_assoc, List.singleton_append]
      rw [readLog, records_append hone, List.map_cons, hread]
      rfl

/-- The entries are read back if and only if no model breaks its line. -/
theorem readLog_iff (hf : ∀ x, Word (formatF x).bytes) (es : List Event) :
    readLog (es.flatMap (eventText formatF)) = (es.flatMap (entries formatF)).map some ↔
      ∀ e ∈ es, OneLine e := by
  constructor
  · intro h e he
    have hlength := congrArg List.length h
    rw [readLog, List.length_map, length_records, List.length_map, List.count_flatMap,
      List.length_flatMap] at hlength
    have hsum : (es.map fun e => (eventText formatF e).count 10).sum =
        (es.map fun e => (entries formatF e).length).sum + (es.map breaksOf).sum := by
      rw [← List.sum_map_add]
      exact congrArg List.sum (List.map_congr_left fun e _ => count_eventText hf e)
    have hzero : (es.map breaksOf).sum = 0 := by
      have hcount : (es.map (List.count 10 ∘ eventText formatF)).sum = _ := hsum
      omega
    exact oneLine_iff.mpr (List.sum_eq_zero_iff_forall_eq_nat.mp hzero _ (List.mem_map_of_mem he))
  · intro h
    induction es with
    | nil => rfl
    | cons e es ih =>
      have hbreaks := oneLine_iff.mp (h e List.mem_cons_self)
      have hrest := ih fun d hd => h d (List.mem_cons_of_mem e hd)
      rw [List.flatMap_cons, readLog_eventText hf hbreaks, hrest, List.flatMap_cons,
        List.map_append]

end Read

section Queue

open Lib.Loop Lib.Memory Lib.Queue LogQueue

variable {Q : Option CString → Prop} {s t : State}

/-- All lines that are around have been made for some event. -/
structure Known (Q : Option CString → Prop) (s : State) : Prop where
  nodes : Every (fun n => Q n.data) s.nodes
  enqueued : ∀ d ∈ s.enqueued, Q d
  seen : ∀ d ∈ s.seen, Q d

theorem every_freeAll {h h' : Heap LogNode} {p : Option Nat} {freed freed' : List (Option CString)}
    (he : Every (fun n => Q n.data) h) {rounds : Nat}
    (hloop : loop freeStep rounds (h, p, freed) = some (.ok (h', freed'))) :
    Every (fun n => Q n.data) h' := by
  induction rounds generalizing h p freed with
  | zero => cases hloop
  | succ rounds ih =>
    rw [loop] at hloop
    cases p with
    | none =>
      obtain ⟨rfl, -⟩ := Prod.mk.inj (Except.ok.inj (Option.some.inj hloop))
      exact he
    | some cur =>
      simp only [freeStep] at hloop
      split at hloop
      next hstep =>
        split at hstep <;> cases hstep
        next hbind =>
          obtain ⟨node, -, hbind⟩ := bind_eq_ok.mp hbind
          obtain ⟨h'', hfree, hpure⟩ := bind_eq_ok.mp hbind
          obtain rfl := Except.ok.inj hpure
          exact ih (every_free he hfree) hloop
      next hstep =>
        split at hstep <;> cases hstep
        cases Option.some.inj hloop

theorem known_enqueue (h : Known Q s) {tid a : Nat} (ht : LogQueue.enqueue s tid a = .ok t) :
    Known Q t := by
  have henqueued : ∀ d ∈ s.enqueued ++ (s.nodes a).toList.map Node.data, Q d := by
    intro d hd
    obtain hd | hd := List.mem_append.mp hd
    · exact h.enqueued d hd
    · obtain ⟨n, hn, rfl⟩ := List.mem_map.mp hd
      exact h.nodes a n (Option.mem_toList.mp hn)
  rw [LogQueue.enqueue] at ht
  cases htail : s.logTail with
  | none =>
    simp only [htail] at ht
    obtain rfl := Except.ok.inj ht
    exact ⟨h.nodes, henqueued, h.seen⟩
  | some last =>
    simp only [htail] at ht
    obtain ⟨nodes, hnodes, ht⟩ := bind_eq_ok.mp ht
    obtain rfl := Except.ok.inj ht
    have hnext : ∀ n : LogNode, Q n.data → Q { n with next := some a }.data := fun _ hn => hn
    exact ⟨every_modify h.nodes hnext hnodes, henqueued, h.seen⟩

theorem known_takeNode (h : Known Q s) (ht : takeNode s = .ok t) : Known Q t := by
  rw [takeNode] at ht
  cases hhead : s.logHead with
  | none =>
    simp only [hhead] at ht
    split at ht <;> obtain rfl := Except.ok.inj ht <;> exact ⟨h.nodes, h.enqueued, h.enqueued⟩
  | some node =>
    simp only [hhead] at ht
    obtain ⟨n, -, ht⟩ := bind_eq_ok.mp ht
    obtain rfl := Except.ok.inj ht
    exact ⟨h.nodes, h.enqueued, h.enqueued⟩

def Makes (Q : Option CString → Prop) : LogQueue.Act → Prop
  | .make _ _ finalLine => Q finalLine
  | .enqueue _ | .take | .begin | .write _ | .interrupted | .finish | .stop | .freeAll _ => True

theorem known_step {a : LogQueue.Act} (h : Known Q s) (ha : Makes Q a)
    (ht : LogQueue.step s a = some t) : Known Q t := by
  obtain ⟨r, hr, hok⟩ := Option.bind_eq_some_iff.mp ht
  obtain rfl : r = .ok t := by
    cases r with
    | error => cases hok
    | ok u => exact congrArg _ (Option.some.inj hok)
  cases a with
  | make tid place finalLine =>
    rw [attempt] at hr
    split at hr
    next =>
      obtain rfl := Except.ok.inj (Option.some.inj hr)
      have hnode : Q (Node.mk finalLine none).data := ha
      exact ⟨every_store h.nodes hnode _, h.enqueued, h.seen⟩
    next => cases hr
  | enqueue tid =>
    rw [attempt] at hr
    split at hr
    next => exact known_enqueue h (Option.some.inj hr)
    next => cases hr
  | take =>
    rw [attempt] at hr
    split at hr
    next => exact known_takeNode h (Option.some.inj hr)
    next => cases hr
  | begin =>
    rw [attempt] at hr
    split at hr
    next =>
      obtain ⟨n, -, rfl⟩ := map_eq_ok.mp (Option.some.inj hr)
      exact ⟨h.nodes, h.enqueued, h.seen⟩
    next => cases hr
  | write w =>
    rw [attempt] at hr
    split at hr
    next =>
      obtain ⟨-, hr⟩ := Option.ite_none_right_eq_some.mp hr
      obtain rfl := Except.ok.inj (Option.some.inj hr)
      exact ⟨h.nodes, h.enqueued, h.seen⟩
    next => cases hr
  | interrupted =>
    rw [attempt] at hr
    split at hr
    next => exact Except.ok.inj (Option.some.inj hr) ▸ h
    next => cases hr
  | finish =>
    rw [attempt] at hr
    split at hr
    next =>
      obtain ⟨n, -, hr⟩ := bind_eq_ok.mp (Option.some.inj hr)
      obtain ⟨nodes, hfree, hr⟩ := bind_eq_ok.mp hr
      obtain rfl := Except.ok.inj hr
      exact ⟨every_free h.nodes hfree, h.enqueued, h.seen⟩
    next => cases hr
  | stop =>
    obtain rfl := Except.ok.inj (Option.some.inj hr)
    exact ⟨h.nodes, h.enqueued, h.seen⟩
  | freeAll rounds =>
    rw [attempt] at hr
    split at hr
    next =>
      obtain ⟨q, hloop, hq⟩ := Option.map_eq_some_iff.mp hr
      obtain ⟨⟨nodes, freed⟩, rfl, rfl⟩ := map_eq_ok.mp hq
      exact ⟨every_freeAll h.nodes hloop, h.enqueued, h.seen⟩
    next => cases hr

end Queue

section Events

open LogQueue (Act State)

variable {formatF : Single → CString}

def Written (formatF : Single → CString) (str : Option CString) : Prop :=
  ∃ e, finalLine formatF e = .ok str

theorem exists_events {strs : List (Option CString)} (h : ∀ str ∈ strs, Written formatF str) :
    ∃ es : List Event, es.map (finalLine formatF) = strs.map .ok := by
  induction strs with
  | nil => exact ⟨[], rfl⟩
  | cons str strs ih =>
    obtain ⟨e, he⟩ := h str List.mem_cons_self
    obtain ⟨es, hes⟩ := ih fun d hd => h d (List.mem_cons_of_mem str hd)
    exact ⟨e :: es, by rw [List.map_cons, List.map_cons, he, hes]⟩

theorem text_events (hf : ∀ x, Word (formatF x).bytes) {es : List Event}
    {strs : List (Option CString)} (h : es.map (finalLine formatF) = strs.map .ok) :
    strs.flatMap LogQueue.text = es.flatMap (eventText formatF) := by
  induction es generalizing strs with
  | nil =>
    obtain rfl := List.map_eq_nil_iff.mp h.symm
    rfl
  | cons e es ih =>
    cases strs with
    | nil => cases h
    | cons str strs =>
      obtain ⟨he, hes⟩ := List.cons_eq_cons.mp h
      rw [List.flatMap_cons, List.flatMap_cons, text_finalLine hf he, ih hes]

/-- A writer that has ended has written the lines that it has seen. -/
theorem file_of_ended {acts : List Act} {s : State}
    (hrun : run LogQueue.step State.start acts = some s) (hended : s.writer = .ended) :
    s.file = s.seen.flatMap LogQueue.text := by
  obtain ⟨cells, -, hturn⟩ : LogQueue.Sound s := run_invariant_of_step LogQueue.step
    (fun _ _ _ hs ht => LogQueue.sound_step hs ht) LogQueue.sound_start hrun
  have hidle := (LogQueue.inTurn_idle (by rw [hended, LogQueue.Writer.node])).mp hturn
  exact hturn.ended hended ▸ hidle.1.2

/-- The log of a server that has ended: it has the lines of some events, in
their order, and whoever reads it finds what these events leave in a log, if
and only if no model breaks its line. -/
theorem log_read_iff (formatF : Single → CString) (hf : ∀ x, Word (formatF x).bytes)
    (acts : List Act) (s : State) (hmakes : ∀ a ∈ acts, Makes (Written formatF) a)
    (hrun : run LogQueue.step State.start acts = some s) (hended : s.writer = .ended) :
    (∃ es : List Event, es.map (finalLine formatF) = s.seen.map .ok) ∧
      ∀ es : List Event, es.map (finalLine formatF) = s.seen.map .ok →
        (readLog s.file = (es.flatMap (entries formatF)).map some ↔ ∀ e ∈ es, OneLine e) := by
  have hstart : Known (Written formatF) State.start :=
    { nodes := nofun, enqueued := nofun, seen := nofun }
  have hknown : Known (Written formatF) s :=
    run_invariant LogQueue.step (G := fun _ => Makes (Written formatF))
      (fun _ _ _ h ha ht => known_step h ha ht) hstart (meets_of_labels _ hmakes _) hrun
  refine ⟨exists_events hknown.seen, fun es hes => ?_⟩
  rw [file_of_ended hrun hended, text_events hf hes]
  exact readLog_iff hf es

def connectThenAdd : List Event :=
  [⟨1700000000, some ⟨(127, 0, 0, 1), 5000⟩, .connect, none⟩,
    ⟨1700000001, none, .request,
      some ⟨opAdd, ctData, some ⟨2020, Single.zero, 2, some (ofBytes (ascii "A B")), 1⟩, 0, 0,
        none, 0, none⟩⟩]

def printZero (_ : Single) : CString := ofBytes (ascii "0.00")

def linesOf (es : List Event) : List (Option CString) :=
  es.map fun e => (finalLine printZero e).toOption.join

def logged (es : List Event) : List Act :=
  (linesOf es).flatMap (fun str => [.make 0 7 str, .enqueue 0, .take, .begin,
    .write (LogQueue.text str).length, .finish]) ++ [.stop, .take]

theorem log_read_connectThenAdd :
    ∃ s, run LogQueue.step State.start (logged connectThenAdd) = some s ∧
      readLog s.file = [
        some ⟨1700000000, ascii "127.0.0.1:5000", ascii "CONNECT", none⟩,
        some ⟨1700000001, ascii "UNKNOWN:0", ascii "REQUEST",
          some (ascii "OP_ADD", ascii "CT_DATA", .add (ascii "A B") 2020 (ascii "0.00") 2 1)⟩] := by
  have hend : (run LogQueue.step State.start (logged connectThenAdd)).map
      (fun s => (s.writer, s.seen)) = some (.ended, linesOf connectThenAdd) := by decide
  obtain ⟨s, hs, hp⟩ := Option.map_eq_some_iff.mp hend
  obtain ⟨hended, hseen⟩ := Prod.mk.inj hp
  have hlines : connectThenAdd.map (finalLine printZero) = (linesOf connectThenAdd).map .ok := by
    rfl
  have hwritten : ∀ str ∈ linesOf connectThenAdd, Written printZero str := by
    intro str hstr
    have hmem : .ok str ∈ connectThenAdd.map (finalLine printZero) := by
      rw [hlines]
      exact List.mem_map_of_mem hstr
    obtain ⟨e, -, he⟩ := List.mem_map.mp hmem
    exact ⟨e, he⟩
  have hmakes : ∀ a ∈ logged connectThenAdd, Makes (Written printZero) a := by
    intro a ha
    obtain ha | ha := List.mem_append.mp ha
    · obtain ⟨str, hstr, ha⟩ := List.mem_flatMap.mp ha
      simp only [List.mem_cons, List.not_mem_nil, or_false] at ha
      obtain rfl | rfl | rfl | rfl | rfl | rfl := ha
      · exact hwritten str hstr
      all_goals trivial
    · simp only [List.mem_cons, List.not_mem_nil, or_false] at ha
      obtain rfl | rfl := ha <;> trivial
  obtain ⟨-, hiff⟩ := log_read_iff printZero (fun _ => of_decide_eq_true rfl)
    (logged connectThenAdd) s hmakes hs hended
  have hbreaks : ∀ e ∈ connectThenAdd, breaksOf e = 0 := by decide
  have hread := (hiff connectThenAdd (hseen ▸ hlines)).mpr fun e he =>
    oneLine_iff.mpr (hbreaks e he)
  exact ⟨s, hs, hread.trans (by decide)⟩

end Events

end ListServer.ServerLog
