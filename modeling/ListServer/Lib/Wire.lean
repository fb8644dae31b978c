import Mathlib.Algebra.BigOperators.Group.List.Basic
import Mathlib.Algebra.Order.Ring.Int

namespace ListServer.Lib.Wire

def uint32 (v : Nat) : Nat :=
  if v < 2 ^ 7 then 1
  else if v < 2 ^ 14 then 2
  else if v < 2 ^ 21 then 3
  else if v < 2 ^ 28 then 4
  else 5

/-- A negative number is extended to 64 bits, also that of an enumeration. -/
def int32 (v : Int) : Nat := if v < 0 then 10 else uint32 v.toNat

def zigzag (v : Int) : Nat := if v < 0 then (-2 * v - 1).toNat else (2 * v).toNat

def sint32 (v : Int) : Nat := uint32 (zigzag v)

/-- The key of a field: its number and three bits for the wire type. -/
def tag (id : Nat) : Nat := uint32 (8 * id)

def block (n : Nat) : Nat := uint32 n + n

/-- A scalar field is left out when it is zero, a string when it is empty. -/
def int32Field (id : Nat) (v : Int) : Nat := if v = 0 then 0 else tag id + int32 v

def sint32Field (id : Nat) (v : Int) : Nat := if v = 0 then 0 else tag id + sint32 v

def floatField (id : Nat) (isZero : Bool) : Nat := if isZero then 0 else tag id + 4

def stringField (id n : Nat) : Nat := if n = 0 then 0 else tag id + block n

def messageField (id : Nat) : Option Nat → Nat
  | none => 0
  | some n => tag id + block n

/-- Every element of a repeated field has a key and a length of its own. -/
def repeatedField (id : Nat) (sizes : List Nat) : Nat := (sizes.map fun n => tag id + block n).sum

theorem uint32_le (v : Nat) : uint32 v ≤ 5 := by grind [uint32]

theorem tag_of_lt {id : Nat} (h : id < 16) : tag id = 1 := if_pos (by omega)

theorem sint32Field_le {id : Nat} (h : id < 16) (v : Int) : sint32Field id v ≤ 6 := by
  have htag := tag_of_lt h
  have hv := uint32_le (zigzag v)
  grind [sint32Field, sint32]

@[simp] theorem repeatedField_nil (id : Nat) : repeatedField id [] = 0 := rfl

end ListServer.Lib.Wire
