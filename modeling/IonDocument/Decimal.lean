import IonDocument.Text.Numeral

/-! # Decimal numbers

A decimal is a coefficient and a scale and stands for `coefficient * 10 ^ (-scale)`. Nothing is
normalised: the same number with another scale is another decimal.
-/
namespace IonDocument

structure Decimal where
  coefficient : Int
  scale : Int
  deriving DecidableEq

/-- The coefficient and the exponent of ten, with `d` between them. -/
def Decimal.chars (d : Decimal) : List Char :=
  Numeral.int d.coefficient ++ 'd' :: Numeral.int (-d.scale)

end IonDocument
