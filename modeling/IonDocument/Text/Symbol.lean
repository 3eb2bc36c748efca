import IonDocument.Symbol.Token
import IonDocument.Text.Escape

/-! # The text of a symbol token

A symbol whose text is an identifier is written bare, and any other text in single quotes. A
token without text is written as its id after a dollar sign, so `$` with digits behind it is
no identifier.
-/
namespace IonDocument.Token
open Escape

/-- The words that would be read as something else. -/
def reserved : List (List Char) :=
  [['n', 'u', 'l', 'l'], ['t', 'r', 'u', 'e'], ['f', 'a', 'l', 's', 'e'], ['n', 'a', 'n']]

def looksLikeId : List Char → Bool
  | '$' :: rest => !rest.isEmpty && rest.all Char.isDigit
  | _ => false

def isIdentifier : List Char → Bool
  | [] => false
  | c :: rest =>
    (c.isAlpha || c == '_' || c == '$') &&
      rest.all (fun c => c.isAlphanum || c == '_' || c == '$') &&
      !looksLikeId (c :: rest) && !reserved.contains (c :: rest)

def textChars (text : String) : List Char :=
  if isIdentifier text.toList then text.toList else quoted .single text.toList

def chars (token : Token) : List Char :=
  match token.text with
  | some text => textChars text
  | none => '$' :: Numeral.nat (token.id.getD 0)

end IonDocument.Token
