import IonDocument.Element
import IonDocument.Binary64.Shortest
import IonDocument.Text.Base64
import IonDocument.Text.Symbol

/-! # The text of an element

Annotations come first, each with two colons behind it, and then the value in compact form.
Blobs and clobs stand in double braces, lists and structs are separated by commas and
s-expressions by blanks. How timestamps are written is a parameter.
-/
namespace IonDocument
open Escape

/-- The text of a null; only the kind `null` itself is not named. -/
def Kind.nullChars : Kind → List Char
  | .null => Kind.null.keyword.toList
  | k => Kind.null.keyword.toList ++ '.' :: k.keyword.toList

def annotationChars (annotations : List Token) : List Char :=
  annotations.flatMap fun a => a.chars ++ [':', ':']

section
variable (stamp : Timestamp → List Char)

def Scalar.charsWith : Scalar → List Char
  | ⟨.bool, true⟩ => ['t', 'r', 'u', 'e']
  | ⟨.bool, false⟩ => ['f', 'a', 'l', 's', 'e']
  | ⟨.int, n⟩ => Numeral.int n
  | ⟨.float, x⟩ => Binary64.chars x
  | ⟨.decimal, d⟩ => Decimal.chars d
  | ⟨.timestamp, t⟩ => stamp t
  | ⟨.string, s⟩ => quoted .double s.toList
  | ⟨.symbol, token⟩ => Token.chars token
  | ⟨.blob, bs⟩ => '{' :: '{' :: Base64.encode bs ++ ['}', '}']
  | ⟨.clob, bs⟩ => '{' :: '{' :: '"' :: Escape.bytes bs ++ ['"', '}', '}']

mutual
def Element.charsWith : Element → List Char
  | ⟨as, v, _⟩ => annotationChars as ++ v.charsWith
def Value.charsWith : Value → List Char
  | .null k => k.nullChars
  | .scalar s => s.charsWith stamp
  | .struct fields => '{' :: fieldCharsWith fields ++ ['}']
  | .list items => '[' :: itemCharsWith ',' items ++ [']']
  | .sexp items => '(' :: itemCharsWith ' ' items ++ [')']
def itemCharsWith (separator : Char) : List Element → List Char
  | [] => []
  | [e] => e.charsWith
  | e :: rest => e.charsWith ++ separator :: itemCharsWith separator rest
def fieldCharsWith : List (Token × Element) → List Char
  | [] => []
  | [(name, e)] => name.chars ++ ':' :: e.charsWith
  | (name, e) :: rest => name.chars ++ ':' :: e.charsWith ++ ',' :: fieldCharsWith rest
end

def Element.textWith (e : Element) : String := String.ofList (e.charsWith stamp)

end

def Element.text (e : Element) : String := e.textWith Timestamp.chars

end IonDocument
