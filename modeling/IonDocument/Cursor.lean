import IonDocument.Scalar
import IonDocument.Symbol.Table

/-! # Cursors

A cursor walks a document one level at a time. Looking at where it stands never changes its
state and never fails; annotations and field names may fail but change nothing either; and only
advancing, stepping in and out, and reading a payload lead to another state, also when they fail.
The depth that is shown is a natural number of any size: that a machine word has a largest value,
and a cursor might show it, is left out.
-/
namespace IonDocument

/-- Where a cursor stands. There is no kind where there is no value. -/
structure View where
  kind? : Option Kind
  isNull : Bool
  table : Table
  depth : Nat

structure Cursor (σ ε : Type) where
  view : σ → View
  annotations : σ → Except ε (List Token)
  fieldName : σ → Except ε Token
  advance : σ → Except ε (Option Kind) × σ
  stepIn : σ → Except ε Unit × σ
  stepOut : σ → Except ε Unit × σ
  read : (k : ScalarKind) → σ → Except ε k.Payload × σ

/-- The calls to a cursor that may fail. -/
inductive Call where
  | annotations
  | fieldName
  | advance
  | stepIn
  | stepOut
  | read (k : ScalarKind)
  deriving DecidableEq

@[reducible] def Call.Answer : Call → Type
  | .annotations => List Token
  | .fieldName => Token
  | .advance => Option Kind
  | .stepIn => Unit
  | .stepOut => Unit
  | .read k => k.Payload

def Cursor.perform {σ ε : Type} (c : Cursor σ ε) : (call : Call) → σ → Except ε call.Answer × σ
  | .annotations, s => (c.annotations s, s)
  | .fieldName, s => (c.fieldName s, s)
  | .advance, s => c.advance s
  | .stepIn, s => c.stepIn s
  | .stepOut, s => c.stepOut s
  | .read k, s => c.read k s

end IonDocument
