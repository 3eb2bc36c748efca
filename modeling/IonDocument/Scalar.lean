import IonDocument.Kind
import IonDocument.Binary64
import IonDocument.Decimal
import IonDocument.Timestamp
import IonDocument.Symbol.Token

/-! # Scalars

A scalar is one of nine kinds with a payload of the type that the kind asks for. Equality in the
data model is equality of payloads, up to the ids of symbols that have a text.
-/
namespace IonDocument

@[reducible] def ScalarKind.Payload : ScalarKind → Type
  | .bool => Bool
  | .int => Int
  | .float => Binary64
  | .decimal => Decimal
  | .timestamp => Timestamp
  | .string => String
  | .symbol => Token
  | .blob => List UInt8
  | .clob => List UInt8

instance ScalarKind.decidableEqPayload : (k : ScalarKind) → DecidableEq k.Payload
  | .bool => inferInstanceAs (DecidableEq Bool)
  | .int => inferInstanceAs (DecidableEq Int)
  | .float => inferInstanceAs (DecidableEq Binary64)
  | .decimal => inferInstanceAs (DecidableEq Decimal)
  | .timestamp => inferInstanceAs (DecidableEq Timestamp)
  | .string => inferInstanceAs (DecidableEq String)
  | .symbol => inferInstanceAs (DecidableEq Token)
  | .blob => inferInstanceAs (DecidableEq (List UInt8))
  | .clob => inferInstanceAs (DecidableEq (List UInt8))

structure Scalar where
  kind : ScalarKind
  payload : kind.Payload
  deriving DecidableEq

namespace Scalar

def payload? (s : Scalar) (k : ScalarKind) : Option k.Payload :=
  if h : s.kind = k then some (h ▸ s.payload) else none

@[simp] theorem payload?_self (k : ScalarKind) (p : k.Payload) :
    (Scalar.mk k p).payload? k = some p := by
  simp [payload?]

theorem payload?_of_ne {s : Scalar} {k : ScalarKind} (h : s.kind ≠ k) : s.payload? k = none := by
  simp [payload?, h]

def same (a b : Scalar) : Bool :=
  match a, b with
  | ⟨.symbol, s⟩, ⟨.symbol, t⟩ => Token.same s t
  | a, b => a = b

@[simp] theorem same_self (s : Scalar) : s.same s = true := by
  unfold same
  split <;> simp_all

end Scalar
end IonDocument
