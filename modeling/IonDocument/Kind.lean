/-! # The thirteen kinds of value

A kind is `null`, a scalar kind, or a container kind. A typed null is declared with any
of the thirteen, so `null` here is the kind of the untyped null and not "no value".
-/
namespace IonDocument

/-- The kinds whose values carry one payload and no children. -/
inductive ScalarKind where
  | bool | int | float | decimal | timestamp | string | symbol | blob | clob
  deriving DecidableEq

inductive ContainerKind where
  | struct | list | sexp
  deriving DecidableEq

inductive Kind where
  | null
  | scalar (kind : ScalarKind)
  | container (kind : ContainerKind)
  deriving DecidableEq

namespace ScalarKind

def all : List ScalarKind :=
  [.bool, .int, .float, .decimal, .timestamp, .string, .symbol, .blob, .clob]

end ScalarKind

namespace Kind

/-- Every kind, in the order of the data model. -/
def all : List Kind :=
  .null :: ScalarKind.all.map .scalar ++ [.container .struct, .container .list, .container .sexp]

def isContainer : Kind → Bool
  | .container _ => true
  | _ => false

/-- The word for this kind in text, as in a null of a declared kind. -/
def keyword : Kind → String
  | .null => "null"
  | .scalar .bool => "bool"
  | .scalar .int => "int"
  | .scalar .float => "float"
  | .scalar .decimal => "decimal"
  | .scalar .timestamp => "timestamp"
  | .scalar .string => "string"
  | .scalar .symbol => "symbol"
  | .scalar .blob => "blob"
  | .scalar .clob => "clob"
  | .container .struct => "struct"
  | .container .list => "list"
  | .container .sexp => "sexp"

def index (k : Kind) : Nat := all.idxOf k

instance : Ord Kind where
  compare a b := compare a.index b.index

theorem mem_all (k : Kind) : k ∈ all := by
  cases k with
  | null => decide
  | scalar k => cases k <;> decide
  | container k => cases k <;> decide

end Kind
end IonDocument
