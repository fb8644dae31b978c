import Mathlib.Algebra.Order.Ring.Int
import Mathlib.Data.List.TakeWhile

namespace ListServer.Lib.CTypes

/-- A C string: the bytes before the terminating NUL. -/
structure CString where
  bytes : List UInt8
  nonzero : ∀ b ∈ bytes, b ≠ 0
deriving DecidableEq, Repr

@[ext] theorem CString.ext {s t : CString} (h : s.bytes = t.bytes) : s = t := by
  cases s
  cases t
  cases h
  rfl

/-- The string a `char *` denotes: the bytes up to the first NUL. -/
def ofBytes (bs : List UInt8) : CString :=
  ⟨bs.takeWhile (fun b => decide (b ≠ 0)), fun _ hb => by simpa using List.mem_takeWhile_imp hb⟩

def CString.empty : CString := ⟨[], by simp⟩

@[simp] theorem CString.bytes_empty : CString.empty.bytes = [] := rfl

def CString.append (s t : CString) : CString :=
  ⟨s.bytes ++ t.bytes, fun b hb => (List.mem_append.mp hb).elim (s.nonzero b) (t.nonzero b)⟩

def CString.takeWhile (p : UInt8 → Bool) (s : CString) : CString :=
  ⟨s.bytes.takeWhile p, fun b hb => s.nonzero b ((List.takeWhile_prefix p).subset hb)⟩

def CString.dropWhile (p : UInt8 → Bool) (s : CString) : CString :=
  ⟨s.bytes.dropWhile p, fun b hb => s.nonzero b ((List.dropWhile_suffix p).subset hb)⟩

def CString.tail (s : CString) : CString :=
  ⟨s.bytes.tail, fun b hb => s.nonzero b (List.mem_of_mem_tail hb)⟩

/-- The bits of an IEEE 754 single-precision number. -/
structure Single where
  bits : BitVec 32
deriving DecidableEq, Repr

def Single.magnitude (x : Single) : Nat := x.bits.toNat % 2 ^ 31

def Single.isNaN (x : Single) : Bool := decide (0xFF * 2 ^ 23 < x.magnitude)

/-- Equal to zero, which holds for both zeros. -/
def Single.isZero (x : Single) : Bool := decide (x.magnitude = 0)

/-- Sign and magnitude read as one integer: both zeros get the same place. -/
def Single.place (x : Single) : Int :=
  if x.bits.toNat < 2 ^ 31 then x.magnitude else -x.magnitude

/-- The comparison `x < y` of C, false as soon as one side is a NaN. -/
def Single.lt (x y : Single) : Bool :=
  !x.isNaN && !y.isNaN && decide (x.place < y.place)

def Single.le (x y : Single) : Bool :=
  !x.isNaN && !y.isNaN && decide (x.place ≤ y.place)

def Single.zero : Single := ⟨0⟩

theorem Single.le_iff {x y : Single} : x.le y = true ↔
    x.isNaN = false ∧ y.isNaN = false ∧ y.lt x = false := by
  cases hx : x.isNaN <;> cases hy : y.isNaN <;> simp [le, lt, hx, hy]

def isSpace (b : UInt8) : Bool := decide (b = 32 ∨ (9 ≤ b ∧ b ≤ 13))

def isDigit (b : UInt8) : Bool := decide (48 ≤ b ∧ b ≤ 57)

def digits (acc : Nat) : List UInt8 → Nat × List UInt8
  | [] => (acc, [])
  | b :: bs => if isDigit b then digits (acc * 10 + (b.toNat - 48)) bs else (acc, b :: bs)

def scanUnsigned : List UInt8 → Option (Nat × List UInt8)
  | [] => none
  | b :: bs => if isDigit b then some (digits 0 (b :: bs)) else none

/-- The numeral that `%d` and `strtol` read in base 10: blanks, a sign and at
least one digit. The value is the mathematical one. -/
def scanInt (s : List UInt8) : Option (Int × List UInt8) :=
  match s.dropWhile isSpace with
  | [] => none
  | b :: bs =>
    if b = 45 then (scanUnsigned bs).map (fun p => (-(p.1 : Int), p.2))
    else if b = 43 then (scanUnsigned bs).map (fun p => ((p.1 : Int), p.2))
    else (scanUnsigned (b :: bs)).map (fun p => ((p.1 : Int), p.2))

def intMax : Int := 2 ^ 31 - 1

def intMin : Int := -2 ^ 31

/-- A value outside the 64-bit `long` is replaced by the nearest bound. -/
def toLong (x : Int) : Int := max (-2 ^ 63) (min x (2 ^ 63 - 1))

def toInt (x : Int) : Int := x.bmod (2 ^ 32)

def dropLiteral : List UInt8 → List UInt8 → Option (List UInt8)
  | [], s => some s
  | _ :: _, [] => none
  | l :: ls, b :: bs => if l = b then dropLiteral ls bs else none

/-- `sscanf(s, "<literal>%d", &num) == 1`, with the number stored in `num`. -/
def sscanfD (literal : List UInt8) (s : CString) : Option Int :=
  (dropLiteral literal s.bytes).bind fun rest =>
    (scanInt rest).map (fun p => toInt (toLong p.1))

theorem toInt_eq {x : Int} (hmin : intMin ≤ x) (hmax : x ≤ intMax) : toInt x = x := by
  simp only [intMin, intMax] at hmin hmax
  simp only [toInt, Int.bmod]
  omega

theorem toLong_eq {x : Int} (hmin : intMin ≤ x) (hmax : x ≤ intMax) : toLong x = x := by
  simp only [intMin, intMax] at hmin hmax
  simp only [toLong]
  omega

theorem dropLiteral_append (p l s : List UInt8) :
    dropLiteral (p ++ l) (p ++ s) = dropLiteral l s := by
  induction p with
  | nil => rfl
  | cons b p ih => simpa [dropLiteral] using ih

theorem sscanfD_append (p : CString) (l : List UInt8) (s : CString) :
    sscanfD (p.bytes ++ l) (p.append s) = sscanfD l s := by
  simp only [sscanfD, CString.append, dropLiteral_append]

end ListServer.Lib.CTypes
