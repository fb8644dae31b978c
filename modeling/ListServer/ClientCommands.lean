import ListServer.ClientStub
import ListServer.Lib.Decimal

namespace ListServer.ClientCommands

open Lib.CTypes Lib.Decimal CarData Message ClientStub

/-- The bytes of `add`, and so on for the other commands. -/
def cmdAdd : CString := ofBytes [97, 100, 100]

def cmdRemove : CString := ofBytes [114, 101, 109, 111, 118, 101]

def cmdGetByYear : CString := ofBytes [103, 101, 116, 95, 98, 121, 95, 121, 101, 97, 114]

def cmdGetByMarca : CString := ofBytes [103, 101, 116, 95, 98, 121, 95, 109, 97, 114, 99, 97]

def cmdGetListOrderedByYear : CString := ofBytes [103, 101, 116, 95, 108, 105, 115, 116, 95, 111,
  114, 100, 101, 114, 101, 100, 95, 98, 121, 95, 121, 101, 97, 114]

def cmdSize : CString := ofBytes [115, 105, 122, 101]

def cmdGetModelList : CString := ofBytes [103, 101, 116, 95, 109, 111, 100, 101, 108, 95, 108, 105,
  115, 116]

def cmdQuit : CString := ofBytes [113, 117, 105, 116]

def cmdHelp : CString := ofBytes [104, 101, 108, 112]

def parseIntStr (s : CString) : Option Int :=
  match scanInt s.bytes with
  | none => none
  | some (x, rest) =>
    if rest ≠ [] then none
    else
      let v := toLong x
      if v < intMin ∨ v > intMax then none else some (toInt v)

/-- `strtok(s, " ")`: the token and what is left for the next call. -/
def strtok (s : CString) : Option (CString × CString) :=
  let s := s.dropWhile fun b => decide (b = 32)
  if s.bytes = [] then none
  else some (s.takeWhile fun b => decide (b ≠ 32), (s.dropWhile fun b => decide (b ≠ 32)).tail)

structure AddArgs where
  modelo : CString
  anoS : CString
  precoS : CString
  marcaS : CString
  combS : CString
deriving DecidableEq

def addArgs (s : CString) : Option AddArgs := do
  let (modelo, s) ← strtok s
  let (anoS, s) ← strtok s
  let (precoS, s) ← strtok s
  let (marcaS, s) ← strtok s
  let (combS, _) ← strtok s
  return ⟨modelo, anoS, precoS, marcaS, combS⟩

/-- What the loop of `main` does with a line. -/
inductive Command
  | quit
  | nothing
  | help
  | usage
  | invalid
  | call (c : Call)

section Main

variable (anoAtual : Int) (strtof : CString → Single)

/-- The car of an `add` line, if `data_create` makes it. -/
def addCar (args : AddArgs) : Option DataT :=
  dataCreate anoAtual (atoi args.anoS) (strtof args.precoS) (atoi args.marcaS) (some args.modelo)
    (atoi args.combS)

def command (input : CString) : Command :=
  let input := input.takeWhile fun b => decide (b ≠ 10)
  if input = cmdQuit then .quit
  else
    match strtok input with
    | none => .nothing
    | some (cmd, s) =>
      if cmd = cmdHelp then .help
      else if cmd = cmdSize then .call .size
      else if cmd = cmdAdd then
        match (addArgs s).bind (addCar anoAtual strtof) with
        | none => .usage
        | some car => .call (.add car)
      else if cmd = cmdRemove then
        match strtok s with
        | none => .usage
        | some (modelo, _) => .call (.removeByModel modelo)
      else if cmd = cmdGetByMarca then
        match (strtok s).bind fun t => parseIntStr t.1 with
        | none => .usage
        | some marca => .call (.getByMarca marca)
      else if cmd = cmdGetByYear then
        match (strtok s).bind fun t => parseIntStr t.1 with
        | none => .usage
        | some ano => .call (.getByYear ano)
      else if cmd = cmdGetListOrderedByYear then .call .orderByYear
      else if cmd = cmdGetModelList then .call .getModelList
      else .invalid

/-- The request that a line sends; the connections to the head and to the tail
may be NULL. -/
def request (rlh rlt : Bool) (input : CString) : Option MessageT :=
  match command anoAtual strtof input with
  | .call c => if (if c.atHead then rlh else rlt) then c.message else none
  | _ => none

end Main

def addLine (input : CString) : Option AddArgs :=
  let input := input.takeWhile fun b => decide (b ≠ 10)
  (strtok input).bind fun (cmd, s) => if cmd = cmdAdd then addArgs s else none

section AddLine

variable {anoAtual : Int} {strtof : CString → Single} {rlh rlt : Bool} {input : CString}
  {args : AddArgs}

theorem command_addLine (h : addLine input = some args) : command anoAtual strtof input =
    (addCar anoAtual strtof args).elim .usage fun car => .call (.add car) := by
  obtain ⟨⟨cmd, s⟩, htok, hadd⟩ := Option.bind_eq_some_iff.mp h
  obtain ⟨rfl, hargs⟩ := Option.ite_none_right_eq_some.mp hadd
  have hquit : input.takeWhile (fun b => decide (b ≠ 10)) ≠ cmdQuit := by
    intro he
    have hfirst : (strtok cmdQuit).map Prod.fst ≠ some cmdAdd := by decide
    exact hfirst (by rw [← he, htok, Option.map_some])
  have hhelp : cmdAdd ≠ cmdHelp := by decide
  have hsize : cmdAdd ≠ cmdSize := by decide
  simp only [command, if_neg hquit, htok, if_neg hhelp, if_neg hsize, if_true]
  rw [hargs, Option.bind_some]
  cases addCar anoAtual strtof args <;> rfl

/-- An `add` line sends its car, if there is one. -/
theorem request_addLine (h : addLine input = some args) :
    request anoAtual strtof rlh rlt input =
      if rlh then (addCar anoAtual strtof args).map addRequest else none := by
  rw [request, command_addLine h]
  cases hcar : addCar anoAtual strtof args with
  | none => cases rlh <;> rfl
  | some car =>
    have hvalid := valid_iff.mp (dataCreate_eq_some.mp hcar).2.2.2.2.2
    have hmessage : (Call.add car).message = some (addRequest car) := by
      rw [Call.message, rlistAddRequest_eq, if_pos hvalid.2.2]
    rw [Option.elim_some, Option.map_some, ← hmessage]
    rfl

/-- What `strtok` can give: it has no blanks, and `fgets` ends at a line end. -/
structure IsToken (t : CString) : Prop where
  nonempty : t.bytes ≠ []
  whole : ∀ b ∈ t.bytes, b ≠ 32 ∧ b ≠ 10

def blank : CString := ⟨[32], by simp⟩

theorem strtok_token {t r : CString} (ht : IsToken t) (hr : ∀ b, r.bytes.head? = some b → b = 32) :
    strtok (t.append r) = some (t, r.tail) := by
  have hall : ∀ b ∈ t.bytes, decide (b ≠ 32) = true := fun b hb =>
    decide_eq_true (ht.whole b hb).1
  have hstart : (t.append r).dropWhile (fun b => decide (b = 32)) = t.append r := by
    apply CString.ext
    cases hb : t.bytes with
    | nil => exact absurd hb ht.nonempty
    | cons b bs =>
      have hne := (ht.whole b (hb ▸ List.mem_cons_self)).1
      simp [CString.dropWhile, CString.append, hb, hne]
  have htake : (t.append r).takeWhile (fun b => decide (b ≠ 32)) = t := by
    apply CString.ext
    simp only [CString.takeWhile, CString.append]
    rw [List.takeWhile_append_of_pos hall]
    cases hb : r.bytes with
    | nil => exact List.append_nil _
    | cons b bs =>
      obtain rfl := hr b (by rw [hb]; rfl)
      exact List.append_nil _
  have hdrop : (t.append r).dropWhile (fun b => decide (b ≠ 32)) = r := by
    apply CString.ext
    simp only [CString.dropWhile, CString.append]
    rw [List.dropWhile_append_of_pos hall]
    cases hb : r.bytes with
    | nil => rfl
    | cons b bs =>
      obtain rfl := hr b (by rw [hb]; rfl)
      rfl
  have hne : (t.append r).bytes ≠ [] := by
    simp [CString.append, ht.nonempty]
  rw [strtok, hstart, if_neg hne, htake, hdrop]

def addText (args : AddArgs) : CString :=
  cmdAdd.append (blank.append (args.modelo.append (blank.append (args.anoS.append (blank.append
    (args.precoS.append (blank.append (args.marcaS.append (blank.append args.combS)))))))))

/-- Any five tokens can be those of an `add` line. -/
theorem addLine_addText (hmodelo : IsToken args.modelo) (hano : IsToken args.anoS)
    (hpreco : IsToken args.precoS) (hmarca : IsToken args.marcaS) (hcomb : IsToken args.combS) :
    addLine (addText args) = some args := by
  have hcmd : IsToken cmdAdd := by
    have hbytes : cmdAdd.bytes = [97, 100, 100] := by decide
    refine ⟨by simp [hbytes], fun b hb => ?_⟩
    rw [hbytes] at hb
    obtain rfl | rfl | rfl : b = 97 ∨ b = 100 ∨ b = 100 := by simpa using hb
    all_goals decide
  have hblank : ∀ s : CString, ∀ b, (blank.append s).bytes.head? = some b → b = 32 := by
    intro s b hb
    exact (Option.some.inj hb).symm
  have hnext : ∀ s : CString, (blank.append s).tail = s := fun s => CString.ext rfl
  have hlast : strtok args.combS = some (args.combS, ⟨[], nofun⟩) := by
    have hend := strtok_token (r := ⟨[], nofun⟩) hcomb nofun
    have hsame : args.combS.append ⟨[], nofun⟩ = args.combS := CString.ext (List.append_nil _)
    rw [hsame] at hend
    exact hend
  have hjoin : ∀ t s : CString, IsToken t → 10 ∉ s.bytes →
      10 ∉ (t.append (blank.append s)).bytes := by
    intro t s ht hs hb
    simp only [CString.append, blank, List.mem_append, List.mem_singleton] at hb
    obtain hb | hb | hb := hb
    · exact (ht.whole 10 hb).2 rfl
    · exact absurd hb (by decide)
    · exact hs hb
  have hwhole : (addText args).takeWhile (fun b => decide (b ≠ 10)) = addText args := by
    apply CString.ext
    refine List.takeWhile_eq_self_iff.mpr fun b hb => decide_eq_true ?_
    rintro rfl
    exact hjoin _ _ hcmd (hjoin _ _ hmodelo (hjoin _ _ hano (hjoin _ _ hpreco
      (hjoin _ _ hmarca fun hb => (hcomb.whole 10 hb).2 rfl)))) hb
  simp only [addLine, hwhole]
  rw [addText, strtok_token hcmd (hblank _), hnext, Option.bind_some, if_pos rfl, addArgs,
    strtok_token hmodelo (hblank _), hnext]
  simp only [Option.bind_eq_bind, Option.bind_some]
  rw [strtok_token hano (hblank _), hnext]
  simp only [Option.bind_some]
  rw [strtok_token hpreco (hblank _), hnext]
  simp only [Option.bind_some]
  rw [strtok_token hmarca (hblank _), hnext]
  simp only [Option.bind_some, hlast]
  rfl

end AddLine

/-- The numeral of the whole token has the value that `atoi` takes. -/
theorem atoi_of_parseIntStr {s : CString} {v : Int} (h : parseIntStr s = some v) : atoi s = v := by
  rw [parseIntStr] at h
  cases hs : scanInt s.bytes with
  | none => simp [hs] at h
  | some p =>
    obtain ⟨x, rest⟩ := p
    simp only [hs] at h
    obtain ⟨-, h⟩ := Option.ite_none_left_eq_some.mp h
    obtain ⟨-, h⟩ := Option.ite_none_left_eq_some.mp h
    rw [atoi, hs]
    exact Option.some.inj h

/-- The request of an `add` line has the year and the brand that `get_by_year` and
`get_by_marca` read in its tokens. -/
def ReadAlike (anoAtual : Int) (strtof : CString → Single) (rlh rlt : Bool) (input : CString)
    (args : AddArgs) : Prop :=
  ∀ msg, request anoAtual strtof rlh rlt input = some msg → ∃ d, msg.data = some d ∧
    parseIntStr args.anoS = some d.ano ∧ parseIntStr args.marcaS = some d.marca

/-- An `add` line that sends a request is read as the other commands read it exactly
when the tokens of its year and its brand are numerals as a whole. -/
theorem read_alike_iff (anoAtual : Int) (strtof : CString → Single) (rlh rlt : Bool)
    (input : CString) (args : AddArgs) (h : addLine input = some args) :
    ReadAlike anoAtual strtof rlh rlt input args ↔
      rlh = false ∨
      validarDados anoAtual (atoi args.anoS) (strtof args.precoS) (atoi args.marcaS)
        (some args.modelo) (atoi args.combS) = false ∨
      (parseIntStr args.anoS ≠ none ∧ parseIntStr args.marcaS ≠ none) := by
  rw [ReadAlike, request_addLine h]
  cases rlh with
  | false => simp
  | true =>
    rw [if_pos rfl, addCar, dataCreate, Option.map_some]
    cases hv : validarDados anoAtual (atoi args.anoS) (strtof args.precoS) (atoi args.marcaS)
        (some args.modelo) (atoi args.combS) with
    | false => simp
    | true =>
      simp only [if_true, Option.map_some, Option.some.injEq, forall_eq', reduceCtorEq, false_or]
      constructor
      · rintro ⟨d, -, hano, hmarca⟩
        exact ⟨by simp [hano], by simp [hmarca]⟩
      · rintro ⟨hano, hmarca⟩
        obtain ⟨ano, hano⟩ := Option.ne_none_iff_exists'.mp hano
        obtain ⟨marca, hmarca⟩ := Option.ne_none_iff_exists'.mp hmarca
        refine ⟨_, rfl, ?_, ?_⟩
        · exact hano.trans (congrArg some (atoi_of_parseIntStr hano).symm)
        · exact hmarca.trans (congrArg some (atoi_of_parseIntStr hmarca).symm)

/-- `add m 2020 1 1 0` -/
def addOne : CString := ofBytes [97, 100, 100, 32, 109, 32, 50, 48, 50, 48, 32, 49, 32, 49, 32, 48]

def oneArgs : AddArgs :=
  ⟨ofBytes [109], ofBytes [50, 48, 50, 48], ofBytes [49], ofBytes [49], ofBytes [48]⟩

theorem read_alike_one : addLine addOne = some oneArgs ∧
    ReadAlike 2026 (fun _ => ⟨0x3F800000⟩) true true addOne oneArgs ∧
    (request 2026 (fun _ => ⟨0x3F800000⟩) true true addOne).isSome = true := by
  have hline : addLine addOne = some oneArgs := by decide
  refine ⟨hline, ?_, by decide⟩
  exact (read_alike_iff 2026 (fun _ => ⟨0x3F800000⟩) true true addOne oneArgs hline).mpr
    (.inr (.inr (by decide)))

/-- `add m 2020 1 abc 0` -/
def addAbc : CString := ofBytes [97, 100, 100, 32, 109, 32, 50, 48, 50, 48, 32, 49, 32, 97, 98, 99,
  32, 48]

def abcArgs : AddArgs := { oneArgs with marcaS := ofBytes [97, 98, 99] }

/-- A word is taken for the brand 0. -/
theorem add_abc_sends : addLine addAbc = some abcArgs ∧
    (∃ msg d, request 2026 (fun _ => ⟨0x3F800000⟩) true true addAbc = some msg ∧
      msg.data = some d ∧ d.marca = 0 ∧ parseIntStr abcArgs.marcaS = none) ∧
    ¬ ReadAlike 2026 (fun _ => ⟨0x3F800000⟩) true true addAbc abcArgs := by
  have hsent : ∃ msg d, request 2026 (fun _ => ⟨0x3F800000⟩) true true addAbc = some msg ∧
      msg.data = some d ∧ d.marca = 0 ∧ parseIntStr abcArgs.marcaS = none :=
    ⟨_, _, rfl, rfl, by decide, by decide⟩
  refine ⟨by decide, hsent, fun h => ?_⟩
  obtain ⟨msg, d, hmsg, -, -, hnone⟩ := hsent
  obtain ⟨d', -, -, hmarca⟩ := h msg hmsg
  rw [hnone] at hmarca
  cases hmarca

end ListServer.ClientCommands
