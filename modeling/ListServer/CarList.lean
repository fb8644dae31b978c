import ListServer.CarData
import ListServer.Lib.Bubble

namespace ListServer.CarList

open Lib.CTypes Lib CarData

structure ListT where
  size : Int
  head : List DataT
deriving DecidableEq, Repr

def listCreate : ListT := ⟨0, []⟩

def listAdd (anoAtual : Int) (list : ListT) (car : DataT) : Int × ListT :=
  match dataDup anoAtual car with
  | none => (-1, list)
  | some data => (0, ⟨list.size + 1, list.head ++ [data]⟩)

theorem listAdd_eq (anoAtual : Int) (list : ListT) (car : DataT) : listAdd anoAtual list car =
    if Valid anoAtual car then (0, ⟨list.size + 1, list.head ++ [car]⟩) else (-1, list) := by
  rw [listAdd, dataDup_eq]
  by_cases h : Valid anoAtual car
  · rw [if_pos h, if_pos h]
  · rw [if_neg h, if_neg h]

def unlink (modelo : CString) : List DataT → Option (List DataT)
  | [] => none
  | data :: next =>
    if data.modelo = modelo then some next else (unlink modelo next).map (data :: ·)

def listRemoveByModel (list : ListT) (modelo : Option CString) : Int × ListT :=
  match modelo with
  | none => (-1, list)
  | some m =>
    match unlink m list.head with
    | none => (1, list)
    | some head => (0, ⟨list.size - 1, head⟩)

def listGetByMarca (list : ListT) (marca : Int) : Option DataT :=
  list.head.find? fun data => decide (data.marca = marca)

/-- The elements of the array before its final NULL. -/
def listGetByYear (list : ListT) (ano : Int) : List DataT :=
  list.head.filter fun data => decide (data.ano = ano)

def listOrderByYear (list : ListT) : ListT :=
  ⟨list.size, Bubble.sort DataT.ano list.head⟩

def listSize (list : ListT) : Int := list.size

def listGetModelList (list : ListT) : List CString := list.head.map DataT.modelo

def listGetAll (list : ListT) : List DataT := list.head

def firstOf (modelo : CString) (list : ListT) : Option DataT :=
  list.head.find? fun data => decide (data.modelo = modelo)

theorem unlink_eq (modelo : CString) (l : List DataT) :
    unlink modelo l = if modelo ∈ l.map DataT.modelo
      then some (l.eraseP fun data => decide (data.modelo = modelo)) else none := by
  induction l with
  | nil => rfl
  | cons data l ih =>
    by_cases h : data.modelo = modelo
    · simp [unlink, h]
    · have h' : ¬ modelo = data.modelo := fun he => h he.symm
      by_cases hm : modelo ∈ l.map DataT.modelo <;> simp_all [unlink]

theorem unlink_models {modelo : CString} {l l' : List DataT} (h : unlink modelo l = some l') :
    l'.map DataT.modelo = (l.map DataT.modelo).erase modelo := by
  rw [unlink_eq, Option.ite_none_right_eq_some, Option.some.injEq] at h
  obtain ⟨-, rfl⟩ := h
  rw [List.erase_eq_eraseP, List.eraseP_map]
  refine congrArg (List.map DataT.modelo) (congrArg (List.eraseP · l) ?_)
  funext data
  exact decide_eq_decide.mpr eq_comm

theorem unlink_perm {modelo : CString} {l l' : List DataT} (h : unlink modelo l = some l') :
    ∃ data, l.find? (fun data => decide (data.modelo = modelo)) = some data ∧
      l.Perm (data :: l') := by
  induction l generalizing l' with
  | nil => simp [unlink] at h
  | cons data l ih =>
    by_cases hd : data.modelo = modelo
    · simp only [unlink, if_pos hd, Option.some.injEq] at h
      exact ⟨data, by simp [hd], by rw [h]⟩
    · simp only [unlink, if_neg hd, Option.map_eq_some_iff] at h
      obtain ⟨rest, hr, rfl⟩ := h
      obtain ⟨d, hf, hp⟩ := ih hr
      exact ⟨d, by simp [hd, hf], (hp.cons data).trans (List.Perm.swap d data rest)⟩

theorem unlink_eq_none {modelo : CString} {l : List DataT} :
    unlink modelo l = none ↔ modelo ∉ l.map DataT.modelo := by
  rw [unlink_eq]
  by_cases h : modelo ∈ l.map DataT.modelo <;> simp [h]

theorem listOrderByYear_perm (list : ListT) : (listOrderByYear list).head.Perm list.head :=
  Bubble.sort_perm DataT.ano list.head

theorem listOrderByYear_sorted (list : ListT) :
    (listOrderByYear list).head.Pairwise (fun a b => a.ano ≤ b.ano) :=
  Bubble.sort_sorted DataT.ano list.head

end ListServer.CarList
