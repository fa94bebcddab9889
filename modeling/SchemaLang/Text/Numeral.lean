/-!
# Decimal numerals

Writing whole numbers in ASCII decimal digits, and reading them with any number of leading zeros, exactly or not at all.

* `decimal` and `signedDecimal` write a number without leading zeros (`eq_nil_of_decimal_eq`) and without a plus sign;
  the digits of a written number denote it (`digitsValue_decimal`).
* `natural?` reads a non-empty run of digits as the number it denotes.
* `signed32?` allows one sign and the range of a signed 32-bit integer.
* `unsigned32?` allows a plus sign and the range of an unsigned 32-bit integer; it reads no minus sign, not even that
  of `-0`.
-/

namespace SchemaLang.Text

/-! ## Writing -/

/-- The digits of a natural number. -/
def decimal (n : Nat) : List Char := Nat.toDigits 10 n

/-- The sign, if it is a minus, and the digits of an integer. -/
def signedDecimal : Int → List Char
  | .ofNat n => decimal n
  | .negSucc n => '-' :: decimal (n + 1)

theorem isDigit_of_mem_decimal {n : Nat} {c : Char} (h : c ∈ decimal n) : c.isDigit = true :=
  Nat.isDigit_of_mem_toDigits (by decide) (by decide) h

/-- A written number has more than one digit only if the first is no zero. -/
theorem eq_nil_of_decimal_eq {n : Nat} {s : List Char} (h : decimal n = '0' :: s) : s = [] := by
  induction n using Nat.strongRecOn generalizing s with
  | ind n ih =>
    rw [decimal, Nat.toDigits_eq_if (by decide)] at h
    split at h
    case isTrue => exact (List.cons.inj h).2.symm
    case isFalse hn =>
      -- The last digit is cut off; the others would be a zero alone.
      obtain ⟨t, ht⟩ : ∃ t, decimal (n / 10) = '0' :: t := by
        cases hd : Nat.toDigits 10 (n / 10) with
        | nil => exact absurd hd Nat.toDigits_ne_nil
        | cons d t =>
          rw [hd] at h
          exact ⟨t, by rw [decimal, hd, (List.cons.inj h).1]⟩
      have hvalue : Nat.ofDigitChars 10 (decimal (n / 10)) 0 = n / 10 := Nat.ofDigitChars_ten_toDigits
      rw [ht, ih (n / 10) (by omega) ht] at hvalue
      have hzero : Nat.ofDigitChars 10 ['0'] 0 = 0 := by decide
      omega

/-! ## Reading -/

/-- The number that a list of decimal digits denotes, most significant digit first. -/
def digitsValue (ds : List Char) : Nat := ds.foldl (fun n d => 10 * n + (d.toNat - '0'.toNat)) 0

theorem digitsValue_decimal (n : Nat) : digitsValue (decimal n) = n := Nat.ofDigitChars_ten_toDigits

/-- The number written by a non-empty text of ASCII digits. -/
def natural? (s : List Char) : Option Nat :=
  if s ≠ [] ∧ s.all Char.isDigit then some (digitsValue s) else none

/-- The integer written by an optional sign and digits. -/
def integer? : List Char → Option Int
  | '+' :: ds => (natural? ds).map Int.ofNat
  | '-' :: ds => (natural? ds).map fun n => -Int.ofNat n
  | ds => (natural? ds).map Int.ofNat

/-- The signed 32-bit integer that a text writes; none if it writes no integer or one out of range. -/
def signed32? (s : List Char) : Option Int :=
  (integer? s).filter fun n => -2147483648 ≤ n ∧ n < 2147483648

/-- The unsigned 32-bit integer that a text writes, with an optional plus sign. -/
def unsigned32? (s : List Char) : Option Nat :=
  let digits := match s with
    | '+' :: ds => ds
    | ds => ds
  (natural? digits).filter fun n => n < 4294967296

example : signed32? ['-', '2', '1', '4', '7', '4', '8', '3', '6', '4', '8'] = some (-2147483648) := by decide
example : signed32? ['2', '1', '4', '7', '4', '8', '3', '6', '4', '8'] = none := by decide
example : signed32? ['+', '0', '7'] = some 7 ∧ signed32? ['+'] = none ∧ signed32? [] = none := by decide
example : unsigned32? ['-', '0'] = none ∧ unsigned32? ['+', '1'] = some 1 := by decide

end SchemaLang.Text
