import IonDocument.Binary64
import IonDocument.Text.Numeral

/-! # The shortest text of a float

The reals that round to a float form an interval around it, ends included when the magnitude
is even. Its text has as few digits as a decimal in that interval can have, and among those
it is the one nearest to the float; of two equally near the upper one is taken. All
arithmetic is exact, on natural numbers in units of `10 ^ (-1074)`, in which every finite
float is whole.
-/
namespace IonDocument

/-- A number with the interval of the reals that round to it; the ends are doubled. -/
structure RoundingInterval where
  value : Nat
  low : Nat
  high : Nat
  closed : Bool

namespace RoundingInterval

def contains (r : RoundingInterval) (x : Nat) : Bool :=
  if r.closed then r.low ≤ 2 * x && 2 * x ≤ r.high else r.low < 2 * x && 2 * x < r.high

/-- How often to take a unit to come nearest to the value without leaving the interval. Only
the two multiples around the value can be it. -/
def nearest? (r : RoundingInterval) (unit : Nat) : Option Nat :=
  let n := r.value / unit
  let below := n * unit
  let above := (n + 1) * unit
  if r.contains above && (!r.contains below || above - r.value ≤ r.value - below) then some (n + 1)
  else if r.contains below then some n
  else none

/-- The first hit on the grids of `10 ^ k` and finer, as a coefficient and a power of ten. On
the grid of single units the value itself is hit. -/
def shortestFrom (r : RoundingInterval) : Nat → Nat × Nat
  | 0 => (r.value, 0)
  | k + 1 =>
    match r.nearest? (Nat.pow 10 (k + 1)) with
    | some n => (n, k + 1)
    | none => r.shortestFrom k

/-- The decimal with the fewest digits in the interval. The search begins on the grid on
which the value has one digit. -/
def shortest (r : RoundingInterval) : Nat × Nat :=
  r.shortestFrom ((Numeral.nat r.value).length - 1)

end RoundingInterval

namespace Binary64

/-- The number of a magnitude in units of `10 ^ (-1074)`. -/
def exact (m : Nat) : Nat := scaled m * Nat.pow 5 1074

def interval (m : Nat) : RoundingInterval where
  value := exact m
  low := exact (m - 1) + exact m
  high := exact m + exact (m + 1)
  closed := m % 2 = 0

/-- Digits with a point after the first and an exponent of ten. -/
def scientific (digits : List Char) (exponent : Int) : List Char :=
  match digits with
  | [] => []
  | [d] => d :: 'e' :: Numeral.int exponent
  | d :: rest => d :: '.' :: rest ++ 'e' :: Numeral.int exponent

def magnitudeChars (m : Nat) : List Char :=
  if m = 0 then ['0', 'e', '0']
  else
    let (n, k) := (interval m).shortest
    let digits := Numeral.nat n
    scientific (digits.reverse.dropWhile (· = '0')).reverse (digits.length + k - 1075 : Int)

/-- The text of a float. Every NaN has the same text. -/
def chars (x : Binary64) : List Char :=
  if x.isNaN then ['n', 'a', 'n']
  else if x.isInfinite then (if x.isNegative then '-' else '+') :: ['i', 'n', 'f']
  else if x.isNegative then '-' :: magnitudeChars x.magnitude
  else magnitudeChars x.magnitude

end Binary64
end IonDocument
