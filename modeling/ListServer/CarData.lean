import ListServer.Lib.CTypes

namespace ListServer.CarData

open Lib.CTypes

def marcaToyota : Int := 0
def marcaMercedes : Int := 4
def combustivelGasolina : Int := 0
def combustivelHibrido : Int := 3

/-- A car of the server's list. The enumerations keep the integer the code
stores, whatever its value. -/
structure DataT where
  ano : Int
  preco : Single
  marca : Int
  modelo : CString
  combustivel : Int
deriving DecidableEq, Repr

def validarDados (anoAtual ano : Int) (preco : Single) (marca : Int) (modelo : Option CString)
    (combustivel : Int) : Bool :=
  if modelo = none then false
  else if ano < 1886 ∨ ano > anoAtual then false
  else if preco.lt Single.zero then false
  else if marca < marcaToyota ∨ marca > marcaMercedes then false
  else if combustivel < combustivelGasolina ∨ combustivel > combustivelHibrido then false
  else true

def dataCreate (anoAtual ano : Int) (preco : Single) (marca : Int) (modelo : Option CString)
    (combustivel : Int) : Option DataT :=
  if validarDados anoAtual ano preco marca modelo combustivel then
    modelo.map fun m => ⟨ano, preco, marca, m, combustivel⟩
  else none

def dataDup (anoAtual : Int) (data : DataT) : Option DataT :=
  dataCreate anoAtual data.ano data.preco data.marca (some data.modelo) data.combustivel

def Valid (anoAtual : Int) (data : DataT) : Prop :=
  validarDados anoAtual data.ano data.preco data.marca (some data.modelo) data.combustivel = true

instance (anoAtual : Int) (data : DataT) : Decidable (Valid anoAtual data) :=
  inferInstanceAs (Decidable (_ = true))

theorem valid_iff {anoAtual : Int} {data : DataT} : Valid anoAtual data ↔
    (1886 ≤ data.ano ∧ data.ano ≤ anoAtual) ∧ data.preco.lt Single.zero = false ∧
      (marcaToyota ≤ data.marca ∧ data.marca ≤ marcaMercedes) ∧
      (combustivelGasolina ≤ data.combustivel ∧ data.combustivel ≤ combustivelHibrido) := by
  simp [Valid, validarDados, and_assoc]

theorem Valid.later {anoAtual anoAtual' : Int} {data : DataT} (h : Valid anoAtual data)
    (ha : anoAtual ≤ anoAtual') : Valid anoAtual' data := by
  rw [valid_iff] at h ⊢
  obtain ⟨⟨hmin, hmax⟩, hrest⟩ := h
  exact ⟨⟨hmin, hmax.trans ha⟩, hrest⟩

theorem dataCreate_eq_some {anoAtual ano marca combustivel : Int} {preco : Single}
    {modelo : Option CString} {data : DataT} :
    dataCreate anoAtual ano preco marca modelo combustivel = some data ↔
      modelo = some data.modelo ∧ ano = data.ano ∧ preco = data.preco ∧ marca = data.marca ∧
        combustivel = data.combustivel ∧ Valid anoAtual data := by
  cases modelo with
  | none => simp [dataCreate]
  | some m =>
    simp only [dataCreate, Option.map_some, Option.ite_none_right_eq_some, Option.some.injEq, Valid]
    constructor
    · rintro ⟨hv, rfl⟩
      exact ⟨rfl, rfl, rfl, rfl, rfl, hv⟩
    · rintro ⟨rfl, rfl, rfl, rfl, rfl, hv⟩
      exact ⟨hv, rfl⟩

theorem dataDup_eq_some {anoAtual : Int} {data d : DataT} :
    dataDup anoAtual data = some d ↔ d = data ∧ Valid anoAtual data := by
  simp only [dataDup, dataCreate_eq_some, Option.some.injEq]
  constructor
  · rintro ⟨h1, h2, h3, h4, h5, hv⟩
    have hd : d = data := by
      cases d; cases data
      simp_all
    exact ⟨hd, hd ▸ hv⟩
  · rintro ⟨rfl, hv⟩
    exact ⟨rfl, rfl, rfl, rfl, rfl, hv⟩

theorem dataDup_of_valid {anoAtual : Int} {data : DataT} (h : Valid anoAtual data) :
    dataDup anoAtual data = some data := dataDup_eq_some.mpr ⟨rfl, h⟩

theorem dataDup_eq (anoAtual : Int) (data : DataT) :
    dataDup anoAtual data = if Valid anoAtual data then some data else none := by
  apply Option.ext
  intro d
  rw [dataDup_eq_some, Option.ite_none_right_eq_some, Option.some.injEq, and_comm, eq_comm]

end ListServer.CarData
