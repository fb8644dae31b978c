import ListServer.Lib.CTypes

namespace ListServer.Message

open Lib.CTypes

def opBad : Int := 0
def opAdd : Int := 10
def opGet : Int := 20
def opDel : Int := 30
def opSize : Int := 40
def opGetModels : Int := 50
def opGetListByYear : Int := 60
def opOrder : Int := 70
def opError : Int := 99
def opBusy : Int := 100
def opReady : Int := 101

def ctBad : Int := 0
def ctData : Int := 10
def ctMarca : Int := 20
def ctYear : Int := 30
def ctModel : Int := 40
def ctResult : Int := 50
def ctList : Int := 60
def ctNone : Int := 70

/-- The protobuf record of a car. `modelo` is a `char *` and may be NULL in a
record built in memory. -/
structure Data where
  ano : Int
  preco : Single
  marca : Int
  modelo : Option CString
  combustivel : Int
deriving DecidableEq, Repr

/-- The protobuf message: a repeated field is its count together with the
array the field points to. -/
structure MessageT where
  opcode : Int
  cType : Int
  data : Option Data
  result : Int
  nModels : Nat
  models : List CString
  nCars : Nat
  cars : List Data
deriving DecidableEq, Repr

def MessageT.init : MessageT := ⟨opBad, ctBad, none, 0, 0, [], 0, []⟩

/-- The three fields that every error branch sets. -/
def MessageT.error (msg : MessageT) : MessageT :=
  { msg with opcode := opError, cType := ctNone, result := -1 }

def toSizeT (x : Int) : Nat := (x % 2 ^ 64).toNat

end ListServer.Message
