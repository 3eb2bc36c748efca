/-! # Decimal numerals

Natural numbers and integers in decimal, and natural numbers in a field of fixed width.
-/
namespace IonDocument.Numeral

def nat (n : Nat) : List Char := Nat.toDigits 10 n

def int : Int → List Char
  | .ofNat n => nat n
  | .negSucc n => '-' :: nat (n + 1)

/-- A natural number, filled up with leading zeros to a width. -/
def padded (width n : Nat) : List Char :=
  List.replicate (width - (nat n).length) '0' ++ nat n

/-- An upper-case hexadecimal digit, for numbers below 16. -/
def hexDigit (n : Nat) : Char :=
  if n < 10 then Char.ofNat ('0'.toNat + n) else Char.ofNat ('A'.toNat + (n - 10))

def hexByte (n : Nat) : List Char := [hexDigit (n / 16), hexDigit (n % 16)]

theorem isDigit_of_mem_nat {n : Nat} {c : Char} (h : c ∈ nat n) : c.isDigit :=
  Nat.isDigit_of_mem_toDigits (by decide) (by decide) h

@[simp] theorem nat_ne_nil (n : Nat) : nat n ≠ [] := Nat.toDigits_ne_nil

@[simp] theorem ofDigitChars_nat (n : Nat) : Nat.ofDigitChars 10 (nat n) 0 = n := by
  simp [nat]

theorem nat_inj {m n : Nat} (h : nat m = nat n) : m = n := by
  have hv := congrArg (Nat.ofDigitChars 10 · 0) h
  simpa using hv

end IonDocument.Numeral
