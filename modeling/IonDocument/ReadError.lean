import IonDocument.Kind

/-! # Errors of reading

A cursor has errors of its own, and what it reports is passed on untouched. Reading itself fails
when the cursor contradicts itself, when containers nest too deep, or when an earlier failure has
left the cursor inside a container; a reader also refuses what it cannot do. A run whose fuel is
spent has no result at all.
-/
namespace IonDocument

/-- What no cursor may say about a value. -/
inductive Misreport where
  | noValue
  | nullWithValue
  deriving DecidableEq

def Misreport.message : Misreport → String
  | .noValue => "cursor is not positioned on a value"
  | .nullWithValue => "cursor reported a non-null value of kind null"

/-- Failures that reading itself finds. -/
inductive Fault where
  | misreport (misreport : Misreport)
  | tooDeep (limit : Nat)
  | stranded (depth expected : Nat)
  deriving DecidableEq

def Fault.message : Fault → String
  | .misreport v => "cursor contract violation: " ++ v.message
  | .tooDeep limit => "container nesting exceeds the limit of " ++ toString limit
  | .stranded depth expected =>
    "cursor is stranded at depth " ++ toString depth ++ ", expected depth " ++ toString expected

inductive ReadError (ε : Type) where
  | exhausted
  | unsupported (operation : String)
  | cursor (error : ε)
  | fault (fault : Fault)
  deriving DecidableEq

def ReadError.message {ε : Type} (describe : ε → String) : ReadError ε → String
  | .exhausted => "no more values"
  | .unsupported operation => "unsupported operation: " ++ operation
  | .cursor e => "cursor error: " ++ describe e
  | .fault f => f.message

inductive Outcome (ε α : Type) where
  | ok (a : α)
  | error (e : ReadError ε)
  | unfinished

namespace Outcome
variable {ε α β σ : Type}

def map (f : α → β) : Outcome ε α → Outcome ε β
  | .ok a => .ok (f a)
  | .error e => .error e
  | .unfinished => .unfinished

/-- Goes on from a result and the state it was reached in. -/
def andThen (r : Outcome ε α × σ) (f : α → σ → Outcome ε β × σ) : Outcome ε β × σ :=
  match r with
  | (.ok a, s) => f a s
  | (.error e, s) => (.error e, s)
  | (.unfinished, s) => (.unfinished, s)

@[simp] theorem andThen_ok (a : α) (s : σ) (f : α → σ → Outcome ε β × σ) :
    andThen (.ok a, s) f = f a s := rfl

@[simp] theorem andThen_error (e : ReadError ε) (s : σ) (f : α → σ → Outcome ε β × σ) :
    andThen (.error e, s) f = (.error e, s) := rfl

@[simp] theorem andThen_unfinished (s : σ) (f : α → σ → Outcome ε β × σ) :
    andThen (.unfinished, s) f = (.unfinished, s) := rfl

end Outcome
end IonDocument
