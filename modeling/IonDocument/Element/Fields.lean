import IonDocument.Element

/-! # The fields of a struct

Fields are found by the text that their names carry. A name that is only an id matches no text,
whatever a symbol table says about it.
-/
namespace IonDocument

abbrev Fields := List (Token × Element)

namespace Fields

def push (fields : Fields) (name : Token) (e : Element) : Fields := fields ++ [(name, e)]

def get? (fields : Fields) (name : String) : Option Element :=
  (fields.find? fun f => f.1.text = some name).map Prod.snd

def getAll (fields : Fields) (name : String) : List Element :=
  (fields.filter fun f => f.1.text = some name).map Prod.snd

theorem head?_getAll (fields : Fields) (name : String) :
    (getAll fields name).head? = get? fields name := by
  simp [getAll, get?, List.head?_map, List.head?_filter]

@[simp] theorem getAll_push (fields : Fields) (name : Token) (e : Element) (text : String) :
    getAll (push fields name e) text =
      getAll fields text ++ if name.text = some text then [e] else [] := by
  by_cases h : name.text = some text <;> simp [getAll, push, h]

end Fields
end IonDocument
