/-! # Floating-point numbers as 64-bit patterns

A float is its bit pattern: one sign bit, eleven bits of exponent, 52 bits of fraction. Two
floats are equal when all their bits are, so the zeros differ and a NaN equals itself. The
bits below the sign are the *magnitude*; for finite floats the magnitudes are in the order of
the numbers, and `scaled` gives the number as a multiple of the least positive float.
-/
namespace IonDocument

structure Binary64 where
  bits : UInt64
  deriving DecidableEq

namespace Binary64

def isNegative (x : Binary64) : Bool := 0x8000000000000000 ≤ x.bits.toNat

def magnitude (x : Binary64) : Nat := x.bits.toNat % 0x8000000000000000

/-- The magnitude of the infinities; the larger ones belong to the NaNs. -/
def infinity : Nat := 0x7FF0000000000000

def isNaN (x : Binary64) : Bool := infinity < x.magnitude

def isInfinite (x : Binary64) : Bool := x.magnitude = infinity

/-- The number of a magnitude in units of `2 ^ (-1074)`. -/
def scaled (m : Nat) : Nat :=
  let fraction := m % 0x10000000000000
  match m / 0x10000000000000 with
  | 0 => fraction
  | e + 1 => (0x10000000000000 + fraction) * Nat.pow 2 e

theorem eq_of_sign_magnitude {x y : Binary64} (hs : x.isNegative = y.isNegative)
    (hm : x.magnitude = y.magnitude) : x = y := by
  cases x with
  | mk a =>
    cases y with
    | mk b =>
      have ha := a.toNat_lt
      have hb := b.toNat_lt
      simp only [isNegative, magnitude, decide_eq_decide] at hs hm
      have h : a.toNat = b.toNat := by omega
      rw [UInt64.toNat_inj.mp h]

/-- Larger magnitudes are larger numbers. -/
theorem scaled_lt_succ (m : Nat) : scaled m < scaled (m + 1) := by
  unfold scaled
  by_cases hf : m % 0x10000000000000 = 0x10000000000000 - 1
  · have hq : (m + 1) / 0x10000000000000 = m / 0x10000000000000 + 1 := by omega
    have hr : (m + 1) % 0x10000000000000 = 0 := by omega
    rw [hq, hr, hf]
    cases h : m / 0x10000000000000 with
    | zero => simp
    | succ e =>
      have hp : 0 < Nat.pow 2 e := Nat.two_pow_pos e
      have hs : Nat.pow 2 (e + 1) = Nat.pow 2 e * 2 := rfl
      simp only [hs, Nat.add_zero]
      omega
  · have hq : (m + 1) / 0x10000000000000 = m / 0x10000000000000 := by omega
    have hr : (m + 1) % 0x10000000000000 = m % 0x10000000000000 + 1 := by omega
    rw [hq, hr]
    cases h : m / 0x10000000000000 with
    | zero => simp
    | succ e =>
      have hp : 0 < Nat.pow 2 e := Nat.two_pow_pos e
      exact Nat.mul_lt_mul_of_pos_right (by omega) hp

end Binary64
end IonDocument
