import IonDocument.Text.Numeral
import IonDocument.Proofs.Text.Prefix

/-! # Reading numerals

A numeral is over where there is no digit, and its digits give the number back, leading zeros or
not.
-/
namespace IonDocument.Numeral
open Text

/-- The characters of an integer. -/
def isIntChar (c : Char) : Bool := c = '-' || c.isDigit

theorem isIntChar_of_mem_int {i : Int} {c : Char} (h : c ∈ int i) : isIntChar c = true := by
  cases i with
  | ofNat n => simp [isIntChar, isDigit_of_mem_nat h]
  | negSucc n =>
    rcases List.mem_cons.mp h with rfl | hc
    · rfl
    · simp [isIntChar, isDigit_of_mem_nat hc]

theorem begins_int (i : Int) : Begins isIntChar (int i) := by
  apply begins_of_forall_mem
  · intro c hc
    exact isIntChar_of_mem_int hc
  · cases i with
    | ofNat n => exact nat_ne_nil n
    | negSucc n => nofun

/-- No natural number begins with a sign. -/
theorem nat_ne_minus (n : Nat) (r : List Char) : nat n ≠ '-' :: r := by
  intro h
  have hdigit : '-'.isDigit = true := isDigit_of_mem_nat (h ▸ List.mem_cons_self)
  exact absurd hdigit (by decide)

theorem int_inj {i j : Int} (h : int i = int j) : i = j := by
  cases i with
  | ofNat m =>
    cases j with
    | ofNat n => rw [nat_inj h]
    | negSucc n => exact absurd h (nat_ne_minus m _)
  | negSucc m =>
    cases j with
    | ofNat n => exact absurd h.symm (nat_ne_minus n _)
    | negSucc n =>
      have hmn := nat_inj (List.cons.inj h).2
      rw [Nat.succ.inj hmn]

def isSign (c : Char) : Bool := c = '-' || c = '+'

theorem isSign_of_isDigit {c : Char} (h : c.isDigit = true) : isSign c = false := by
  rw [isSign, Bool.or_eq_false_iff, decide_eq_false_iff_not, decide_eq_false_iff_not]
  constructor
  · rintro rfl
    cases h
  · rintro rfl
    cases h

/-- What a number can begin with. -/
def isNumberStart (c : Char) : Bool := isSign c || c.isDigit

theorem isNumberStart_of_isDigit {c : Char} (h : c.isDigit = true) : isNumberStart c = true := by
  simp [isNumberStart, h]

theorem isNumberStart_of_isIntChar {c : Char} (h : isIntChar c = true) : isNumberStart c = true := by
  simp only [isIntChar, isNumberStart, isSign, Bool.or_eq_true] at h ⊢
  rcases h with h | h
  · exact .inl (.inl h)
  · exact .inr h

theorem isDigit_of_mem_padded {w n : Nat} {c : Char} (h : c ∈ padded w n) : c.isDigit = true := by
  rcases List.mem_append.mp h with hc | hc
  · rw [List.eq_of_mem_replicate hc]
    rfl
  · exact isDigit_of_mem_nat hc

theorem begins_padded (w n : Nat) : Begins Char.isDigit (padded w n) := by
  apply begins_of_forall_mem
  · intro c hc
    exact isDigit_of_mem_padded hc
  · intro h
    rw [padded, List.append_eq_nil_iff] at h
    exact nat_ne_nil n h.2

theorem ofDigitChars_padded (w n : Nat) : Nat.ofDigitChars 10 (padded w n) 0 = n := by
  simp [padded, Nat.ofDigitChars_append]

theorem padded_inj {v w m n : Nat} (h : padded v m = padded w n) : m = n := by
  rw [← ofDigitChars_padded v m, h, ofDigitChars_padded]

theorem length_nat_le {w n : Nat} (hw : 0 < w) (h : n < Nat.pow 10 w) : (nat n).length ≤ w :=
  (Nat.length_toDigits_le_iff (by decide) hw).mpr h

theorem length_padded {w n : Nat} (h : (nat n).length ≤ w) : (padded w n).length = w := by
  simp only [padded, List.length_append, List.length_replicate]
  omega

/-- Two fields of digits that are followed by something else. -/
theorem padded_append_inj {v w m n : Nat} {r s : List Char} (hr : Leaves Char.isDigit r)
    (hs : Leaves Char.isDigit s) (h : padded v m ++ r = padded w n ++ s) : m = n ∧ r = s := by
  obtain ⟨hmn, hrs⟩ := append_inj (fun _ => isDigit_of_mem_padded)
    (fun _ => isDigit_of_mem_padded) hr hs h
  exact ⟨padded_inj hmn, hrs⟩

theorem padded_append_cons_inj {v w m n : Nat} {c : Char} {r s : List Char}
    (hc : c.isDigit = false) (h : padded v m ++ c :: r = padded w n ++ c :: s) : m = n ∧ r = s := by
  obtain ⟨hmn, hrs⟩ := padded_append_inj (leaves_cons hc) (leaves_cons hc) h
  exact ⟨hmn, (List.cons.inj hrs).2⟩

end IonDocument.Numeral
