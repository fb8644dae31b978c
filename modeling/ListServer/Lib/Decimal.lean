import ListServer.Lib.CTypes

namespace ListServer.Lib.Decimal

open CTypes

def byte (c : Char) : UInt8 := UInt8.ofNat c.toNat

def numeral (n : Nat) : List UInt8 := (Nat.toDigits 10 n).map byte

def formatD (x : Int) : List UInt8 := if x < 0 then 45 :: numeral x.natAbs else numeral x.natAbs

section Digits

variable {c : Char} {cs : List Char} {rest : List UInt8}

theorem byte_toNat (h : c.isDigit = true) :
    (byte c).toNat = c.toNat ∧ 48 ≤ c.toNat ∧ c.toNat ≤ 57 := by
  simp only [Char.isDigit, Bool.and_eq_true, decide_eq_true_eq, ge_iff_le,
    UInt32.le_iff_toNat_le] at h
  have hmin : 48 ≤ c.toNat := h.1
  have hmax : c.toNat ≤ 57 := h.2
  refine ⟨?_, hmin, hmax⟩
  rw [byte, UInt8.toNat_ofNat']
  omega

theorem isDigit_byte (h : c.isDigit = true) : isDigit (byte c) = true := by
  obtain ⟨hbyte, hmin, hmax⟩ := byte_toNat h
  simp only [isDigit, UInt8.le_iff_toNat_le, decide_eq_true_eq, hbyte]
  exact ⟨hmin, hmax⟩

theorem digits_append (hcs : ∀ c ∈ cs, c.isDigit = true)
    (hrest : ∀ b, rest.head? = some b → isDigit b = false) (acc : Nat) :
    digits acc (cs.map byte ++ rest) = (Nat.ofDigitChars 10 cs acc, rest) := by
  induction cs generalizing acc with
  | nil =>
    rw [Nat.ofDigitChars_nil]
    cases rest with
    | nil => rfl
    | cons b rest => simp [digits, hrest b rfl]
  | cons c cs ih =>
    have hc := hcs c List.mem_cons_self
    have htail := ih (fun d hd => hcs d (List.mem_cons_of_mem c hd))
      (acc * 10 + ((byte c).toNat - 48))
    rw [List.map_cons, List.cons_append, digits, if_pos (isDigit_byte hc), htail,
      Nat.ofDigitChars_cons, (byte_toNat hc).1, Nat.mul_comm]
    rfl

theorem scanUnsigned_numeral (hrest : ∀ b, rest.head? = some b → isDigit b = false) (n : Nat) :
    scanUnsigned (numeral n ++ rest) = some (n, rest) := by
  have hall : ∀ c ∈ Nat.toDigits 10 n, c.isDigit = true := fun c hc =>
    Nat.isDigit_of_mem_toDigits (by omega) (by omega) hc
  have hread := digits_append hall hrest 0
  rw [Nat.ofDigitChars_ten_toDigits] at hread
  rw [numeral]
  cases hd : Nat.toDigits 10 n with
  | nil => exact absurd hd Nat.toDigits_ne_nil
  | cons c cs =>
    rw [hd] at hread hall
    rw [List.map_cons, List.cons_append] at hread ⊢
    rw [scanUnsigned, if_pos (isDigit_byte (hall c List.mem_cons_self)), hread]

theorem numeral_head (n : Nat) : ∃ b bs, numeral n = b :: bs ∧ isDigit b = true := by
  cases hd : Nat.toDigits 10 n with
  | nil => exact absurd hd Nat.toDigits_ne_nil
  | cons c cs =>
    have hc : c ∈ Nat.toDigits 10 n := hd ▸ List.mem_cons_self
    have hdigit := Nat.isDigit_of_mem_toDigits (by omega) (by omega) hc
    exact ⟨byte c, cs.map byte, by rw [numeral, hd, List.map_cons], isDigit_byte hdigit⟩

/-- What `%d` prints is read back, whatever follows it but a digit. -/
theorem scanInt_formatD (rest : List UInt8)
    (hrest : ∀ b, rest.head? = some b → isDigit b = false) (x : Int) :
    scanInt (formatD x ++ rest) = some (x, rest) := by
  have hread := scanUnsigned_numeral hrest x.natAbs
  rw [formatD]
  split
  · have hx : -(x.natAbs : Int) = x := by omega
    have hminus : isSpace 45 = false := by decide
    rw [List.cons_append, scanInt, List.dropWhile_cons, hminus]
    simp only [Bool.false_eq_true, if_false, if_true, hread, Option.map_some, hx]
  · have hx : (x.natAbs : Int) = x := by omega
    obtain ⟨b, bs, hb, hdigit⟩ := numeral_head x.natAbs
    have hchar : 48 ≤ b.toNat ∧ b.toNat ≤ 57 := by
      simpa [isDigit, UInt8.le_iff_toNat_le] using hdigit
    have hspace : isSpace b = false := by
      cases hs : isSpace b with
      | false => rfl
      | true =>
        simp only [isSpace, UInt8.le_iff_toNat_le, ← UInt8.toNat_inj, decide_eq_true_eq] at hs
        simp only [UInt8.reduceToNat] at hs
        omega
    have hsign : b ≠ 45 ∧ b ≠ 43 := by
      constructor <;> rintro rfl <;> exact absurd hdigit (by decide)
    rw [hb] at hread ⊢
    rw [List.cons_append] at hread ⊢
    rw [scanInt, List.dropWhile_cons, hspace]
    simp only [Bool.false_eq_true, if_false, if_neg hsign.1, if_neg hsign.2, hread,
      Option.map_some, hx]

theorem length_formatD {x : Int} {k : Nat} (hk : 0 < k) (hx : x.natAbs < 10 ^ k) :
    (formatD x).length ≤ k + 1 := by
  have hnum : (numeral x.natAbs).length ≤ k := by
    rw [numeral, List.length_map]
    exact (Nat.length_toDigits_le_iff (by omega) hk).mpr hx
  rw [formatD]
  split
  · rw [List.length_cons]
    omega
  · omega

theorem mem_formatD {x : Int} {b : UInt8} (hb : b ∈ formatD x) :
    b = 45 ∨ isDigit b = true := by
  have hnum : ∀ b ∈ numeral x.natAbs, isDigit b = true := by
    intro b hb
    obtain ⟨c, hc, rfl⟩ := List.mem_map.mp hb
    exact isDigit_byte (Nat.isDigit_of_mem_toDigits (by omega) (by omega) hc)
  rw [formatD] at hb
  split at hb
  · exact (List.mem_cons.mp hb).imp_right (hnum b)
  · exact .inr (hnum b hb)

end Digits

theorem formatD_ne_zero (x : Int) : ∀ b ∈ formatD x, b ≠ 0 := by
  rintro b hb rfl
  obtain hminus | hdigit := mem_formatD hb
  · exact absurd hminus (by decide)
  · exact absurd hdigit (by decide)

def decimal (x : Int) : CString := ⟨formatD x, formatD_ne_zero x⟩

/-- `atoi` is `(int)strtol(s, NULL, 10)`, and 0 without a numeral. -/
def atoi (s : CString) : Int := toInt (toLong (((scanInt s.bytes).map Prod.fst).getD 0))

theorem atoi_decimal {x : Int} (hmin : intMin ≤ x) (hmax : x ≤ intMax) :
    atoi (decimal x) = x := by
  have hread := scanInt_formatD [] nofun x
  rw [List.append_nil] at hread
  rw [atoi, decimal, hread, Option.map_some, Option.getD_some, toLong_eq hmin hmax,
    toInt_eq hmin hmax]

end ListServer.Lib.Decimal
