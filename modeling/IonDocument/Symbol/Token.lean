/-! # Symbol tokens

A field name, an annotation or a symbol value is written as text, as an id into the symbol
table in effect, or as both. A token keeps whatever it was written with.
-/
namespace IonDocument

structure Token where
  text : Option String
  id : Option Nat
  deriving DecidableEq

namespace Token

def named (text : String) : Token := ⟨some text, none⟩

def numbered (id : Nat) : Token := ⟨none, some id⟩

/-- Equality in the data model: the text decides where there is one, and the id where neither
token has a text. -/
def same (a b : Token) : Bool :=
  match a.text, b.text with
  | some s, some t => s == t
  | none, none => a.id == b.id
  | _, _ => false

def sameAll : List Token → List Token → Bool
  | [], [] => true
  | a :: as, b :: bs => a.same b && sameAll as bs
  | _, _ => false

@[simp] theorem same_self (a : Token) : a.same a = true := by
  cases a with
  | mk text id => cases text <;> simp [same]

end Token
end IonDocument
