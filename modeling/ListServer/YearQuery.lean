import ListServer.RemoteCalls

namespace ListServer.YearQuery

open Lib Lib.CTypes CarData CarList Message Skeleton ClientStub ListTransfer StoredCars
open RemoteCalls

/-- The call returns the cars of the year and leaves the list alone. The year
`c` is the one that the client reads when it builds its cars. -/
def Answers (t : AnoAtual) (c ano : Int) (list : ListT) : Prop :=
  rlistGetByYearResult c (some (reply t (rlistGetByYearRequest ano) list)) =
      .ok (arrayOrNull (listGetByYear list ano)) ∧
    after t (rlistGetByYearRequest ano) list = list

/-- The client's clock is not behind the cars it asks for. A request for the
year -1 finds a list that is empty, or that is ordered and holds a car which the
client refuses. -/
def Clear (c ano : Int) (list : ListT) : Prop :=
  if ano = -1 then list.head = [] ∨
    (list.head.Pairwise (fun a b => a.ano ≤ b.ano) ∧ ∃ car ∈ list.head, c < car.ano)
  else ∀ car ∈ list.head, car.ano = ano → ano ≤ c

theorem rlistGetByYearResult_reply (c : Int) {msg : MessageT} {cars : List DataT}
    (hop : msg.opcode = opGetListByYear + 1) (hct : msg.cType = ctList)
    (hn : msg.nCars = cars.length) (hcars : msg.cars = cars.map dataToProtobuf) :
    rlistGetByYearResult c (some msg) =
      .ok (if cars = [] then none else createAll c (cars.map dataToProtobuf)) := by
  have hok : success (some msg) opGetListByYear ctList = true := by
    rw [success, Option.any_some, opSuccess, hop, hct]
    rfl
  have htake : (cars.map dataToProtobuf).take cars.length = cars.map dataToProtobuf :=
    List.take_of_length_le (by rw [List.length_map])
  rw [rlistGetByYearResult, hok]
  simp only [Bool.not_true, Bool.false_eq_true, if_false, Lib.Pointer.deref, bind, Except.bind,
    pure, Except.pure, hn, hcars, htake, List.length_eq_zero_iff]
  split <;> rfl

theorem createAll_eq (c : Int) (cars : List DataT) : createAll c (cars.map dataToProtobuf) =
    if ∀ car ∈ cars, Valid c car then some cars else none := by
  by_cases h : ∀ car ∈ cars, Valid c car
  · rw [if_pos h, createAll_valid h]
  · rw [if_neg h]
    induction cars with
    | nil => exact absurd (by simp) h
    | cons car cars ih =>
      have hcreate : dataCreate c car.ano car.preco car.marca (some car.modelo) car.combustivel =
          if Valid c car then some car else none := dataDup_eq c car
      rw [createAll] at ih ⊢
      rw [List.map_cons, List.mapM_cons]
      dsimp only [dataToProtobuf]
      rw [hcreate]
      by_cases hcar : Valid c car
      · have hcars : ¬ ∀ d ∈ cars, Valid c d := fun hall =>
          h fun d hd => (List.mem_cons.mp hd).elim (fun he => he ▸ hcar) (hall d)
        rw [if_pos hcar]
        exact congrArg (fun r => r.bind fun ds => some (car :: ds)) (ih hcars)
      · rw [if_neg hcar]
        rfl

section Reached

variable {y : Int} {list : ListT}

/-- A stored car is refused by a client only for its year. -/
theorem valid_iff_le (h : WellFormed y list) (c : Int) {car : DataT} (hcar : car ∈ list.head) :
    Valid c car ↔ car.ano ≤ c := by
  have hv := valid_iff.mp (h.valid car hcar)
  rw [valid_iff]
  exact ⟨fun hc => hc.1.2, fun hc => ⟨⟨hv.1.1, hc⟩, hv.2⟩⟩

theorem answers_year_iff (h : WellFormed y list) (t : AnoAtual) (c : Int) {ano : Int}
    (hano : ano ≠ -1) : Answers t c ano list ↔ Clear c ano list := by
  have hmem : ∀ car ∈ listGetByYear list ano, car ∈ list.head ∧ car.ano = ano := fun car hcar => by
    simpa [listGetByYear] using hcar
  have hvalid : (∀ car ∈ listGetByYear list ano, Valid c car) ↔
      ∀ car ∈ list.head, car.ano = ano → ano ≤ c := by
    constructor
    · intro hall car hcar hyear
      have hv := hall car (List.mem_filter.mpr ⟨hcar, decide_eq_true hyear⟩)
      rwa [valid_iff_le h c hcar, hyear] at hv
    · intro hall car hcar
      obtain ⟨hin, hyear⟩ := hmem car hcar
      rw [valid_iff_le h c hin, hyear]
      exact hall car hin hyear
  rw [Answers, reply, after, serve_getByYear t list hano, Clear, if_neg hano, ← hvalid,
    @rlistGetByYearResult_reply c _ (listGetByYear list ano) rfl rfl rfl rfl, createAll_eq,
    arrayOrNull]
  constructor
  · rintro ⟨hres, -⟩
    by_contra hnot
    have hne : listGetByYear list ano ≠ [] := fun he => hnot (by simp [he])
    rw [if_neg hne, if_neg hne, if_neg hnot] at hres
    cases hres
  · intro hall
    exact ⟨by rw [if_pos hall], rfl⟩

/-- No stored car has the year that asks for the order. -/
theorem listGetByYear_neg (h : WellFormed y list) : listGetByYear list (-1) = [] := by
  refine List.filter_eq_nil_iff.mpr fun car hcar hyear => ?_
  have hmin := (valid_iff.mp (h.valid car hcar)).1.1
  rw [of_decide_eq_true hyear] at hmin
  omega

theorem listOrderByYear_eq_self_iff : listOrderByYear list = list ↔
    list.head.Pairwise (fun a b => a.ano ≤ b.ano) := by
  have hsort := Bubble.sort_eq_self_iff DataT.ano (l := list.head)
  refine Iff.trans ?_ hsort
  cases list
  simp [listOrderByYear]

theorem answers_order_iff (h : WellFormed y list) (t : AnoAtual) (c : Int) :
    Answers t c (-1) list ↔ Clear c (-1) list := by
  have hperm := listOrderByYear_perm list
  have hvalid : (∀ car ∈ (listOrderByYear list).head, Valid c car) ↔
      ¬ ∃ car ∈ list.head, c < car.ano := by
    push Not
    constructor
    · exact fun hall car hcar => (valid_iff_le h c hcar).mp (hall car (hperm.mem_iff.mpr hcar))
    · intro hall car hcar
      have hin := hperm.mem_iff.mp hcar
      exact (valid_iff_le h c hin).mpr (hall car hin)
  have hreq : rlistGetByYearRequest (-1) = rlistGetListAddRequest := rfl
  rw [Answers, hreq, reply_list, after_list, Clear, if_pos rfl, listGetByYear_neg h,
    @rlistGetByYearResult_reply c _ (listOrderByYear list).head rfl rfl rfl rfl, createAll_eq,
    listOrderByYear_eq_self_iff, arrayOrNull, if_pos rfl]
  constructor
  · rintro ⟨hres, hsorted⟩
    by_cases hnil : list.head = []
    · exact .inl hnil
    · have hne : (listOrderByYear list).head ≠ [] := fun he => by
        rw [he] at hperm
        exact hnil hperm.nil_eq.symm
      refine .inr ⟨hsorted, ?_⟩
      by_contra hnot
      rw [if_neg hne, if_pos (hvalid.mpr hnot)] at hres
      cases hres
  · rintro (hnil | ⟨hsorted, hlate⟩)
    · rw [hnil] at hperm
      rw [if_pos hperm.eq_nil, hnil]
      exact ⟨rfl, .nil⟩
    · rw [if_neg (fun hall => hvalid.mp hall hlate), ite_self]
      exact ⟨rfl, hsorted⟩

/-- A query for a year answers with the cars of the year and changes nothing
exactly if it is clear. -/
theorem answers_iff (h : Reached y list) (t : AnoAtual) (c ano : Int) :
    Answers t c ano list ↔ Clear c ano list := by
  by_cases hano : ano = -1
  · subst hano
    exact answers_order_iff h.wellFormed t c
  · exact answers_year_iff h.wellFormed t c hano

end Reached

def twoToyotas : ListT := ⟨2, [toyota 2020, toyota 2019]⟩

theorem reached_twoToyotas : Reached 2026 twoToyotas :=
  ⟨⟨2026, [turn (toyotaRequest 2020), turn (toyotaRequest 2019)], _, rfl, rfl, le_refl 2026⟩,
    by decide⟩

theorem answers_2020 : Answers (.same 2026) 2026 2020 twoToyotas := by
  refine (answers_iff reached_twoToyotas (.same 2026) 2026 2020).mpr ?_
  rw [Clear, if_neg (by decide)]
  exact fun _ _ _ => by decide

/-- A query for the year -1 returns all cars and reorders the server's list. -/
theorem neg_year_orders : Reached 2026 twoToyotas ∧
    ¬ Answers (.same 2026) 2026 (-1) twoToyotas := by
  refine ⟨reached_twoToyotas, ?_⟩
  rintro ⟨-, hafter⟩
  exact absurd hafter (by decide)

end ListServer.YearQuery
