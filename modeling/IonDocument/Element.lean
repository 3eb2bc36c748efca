import IonDocument.Scalar
import IonDocument.Symbol.Table

/-! # Elements

An element is a value with its annotations and the symbol table in effect where it stands. A
value is a null of a declared kind, a scalar, or a container of elements; the fields of a
struct keep their order, and their names may repeat. Equality in the data model ignores symbol
tables and the ids of tokens that have a text.
-/
namespace IonDocument

mutual
inductive Element where
  | mk (annotations : List Token) (value : Value) (table : Table)
inductive Value where
  | null (kind : Kind)
  | scalar (s : Scalar)
  | struct (fields : List (Token × Element))
  | list (items : List Element)
  | sexp (items : List Element)
end

namespace Value

def kind : Value → Kind
  | .null k => k
  | .scalar s => .scalar s.kind
  | .struct _ => .container .struct
  | .list _ => .container .list
  | .sexp _ => .container .sexp

def isNull : Value → Bool
  | .null _ => true
  | _ => false

end Value

namespace Element

def annotations : Element → List Token
  | ⟨as, _, _⟩ => as

def value : Element → Value
  | ⟨_, v, _⟩ => v

def table : Element → Table
  | ⟨_, _, t⟩ => t

@[simp] theorem annotations_mk (as : List Token) (v : Value) (t : Table) :
    (mk as v t).annotations = as := rfl

@[simp] theorem value_mk (as : List Token) (v : Value) (t : Table) : (mk as v t).value = v := rfl

@[simp] theorem table_mk (as : List Token) (v : Value) (t : Table) : (mk as v t).table = t := rfl

def kind (e : Element) : Kind := e.value.kind

def isNull (e : Element) : Bool := e.value.isNull

/-- An element without annotations, under the system symbols. -/
def ofValue (v : Value) : Element := ⟨[], v, .system⟩

def ofScalar (k : ScalarKind) (p : k.Payload) : Element := ofValue (.scalar ⟨k, p⟩)

def annotated (e : Element) (as : List Token) : Element := ⟨as, e.value, e.table⟩

/-- The element without its own annotations; its children keep theirs. -/
def bare (e : Element) : Element := e.annotated []

def textOf? (e : Element) (token : Token) : Option String := e.table.textOf? token

def isAnnotatedWith (e : Element) (text : String) : Bool :=
  e.annotations.any fun a => e.textOf? a = some text

def scalar? (e : Element) (k : ScalarKind) : Option k.Payload :=
  match e.value with
  | .scalar s => s.payload? k
  | _ => none

def int64? (e : Element) : Option Int :=
  (e.scalar? .int).filter fun n => -0x8000000000000000 ≤ n ∧ n < 0x8000000000000000

/-- The text of a string, or of a symbol whose text is known. -/
def text? (e : Element) : Option String :=
  match e.value with
  | .scalar ⟨.string, s⟩ => some s
  | .scalar ⟨.symbol, token⟩ => e.textOf? token
  | _ => none

def bytes? (e : Element) : Option (List UInt8) := e.scalar? .blob <|> e.scalar? .clob

def items? (e : Element) : Option (List Element) :=
  match e.value with
  | .list items | .sexp items => some items
  | _ => none

def fields? (e : Element) : Option (List (Token × Element)) :=
  match e.value with
  | .struct fields => some fields
  | _ => none

end Element

mutual
def Element.same : Element → Element → Bool
  | ⟨as, v, _⟩, ⟨bs, w, _⟩ => Token.sameAll as bs && v.same w
def Value.same : Value → Value → Bool
  | .null a, .null b => a = b
  | .scalar a, .scalar b => a.same b
  | .struct a, .struct b => sameFields a b
  | .list a, .list b => sameItems a b
  | .sexp a, .sexp b => sameItems a b
  | _, _ => false
def sameItems : List Element → List Element → Bool
  | [], [] => true
  | a :: as, b :: bs => a.same b && sameItems as bs
  | _, _ => false
def sameFields : List (Token × Element) → List (Token × Element) → Bool
  | [], [] => true
  | (m, a) :: as, (n, b) :: bs => m.same n && a.same b && sameFields as bs
  | _, _ => false
end

end IonDocument
