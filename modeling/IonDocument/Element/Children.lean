import IonDocument.Element

/-! # Children and contents

The children of a container are a sequence of elements or the fields of a struct. The contents
of an element are its children, or the element itself where it has none; they are taken one
by one, and what is left is again a value of the same type.
-/
namespace IonDocument

inductive Children where
  | items (items : List Element)
  | fields (fields : List (Token × Element))

namespace Children

def elements : Children → List Element
  | .items es => es
  | .fields fs => fs.map Prod.snd

def size : Children → Nat
  | .items es => es.length
  | .fields fs => fs.length

def get? : Children → Nat → Option Element
  | .items es, i => es[i]?
  | .fields fs, i => fs[i]?.map Prod.snd

/-- The first child, and the children after it. -/
def next : Children → Option Element × Children
  | .items [] => (none, .items [])
  | .items (e :: rest) => (some e, .items rest)
  | .fields [] => (none, .fields [])
  | .fields ((_, e) :: rest) => (some e, .fields rest)

@[simp] theorem length_elements (c : Children) : c.elements.length = c.size := by
  cases c <;> simp [elements, size]

@[simp] theorem getElem?_elements (c : Children) (i : Nat) : c.elements[i]? = c.get? i := by
  cases c <;> simp [elements, get?]

@[simp] theorem fst_next (c : Children) : c.next.1 = c.elements.head? := by
  fun_cases next c <;> rfl

@[simp] theorem elements_snd_next (c : Children) : c.next.2.elements = c.elements.tail := by
  fun_cases next c <;> rfl

/-- When the next element is taken, those after it are left. -/
theorem drop_succ_of_drop_eq_cons {es rest : List Element} {e : Element} {n : Nat}
    (h : es.drop n = e :: rest) : es.drop (n + 1) = rest := by
  rw [← List.tail_drop, h]
  rfl

end Children

/-- The children of a container that is not null. -/
def Value.children? : Value → Option Children
  | .struct fields => some (.fields fields)
  | .list items | .sexp items => some (.items items)
  | _ => none

def Element.children? (e : Element) : Option Children := e.value.children?

/-- The children of an element that has some, and otherwise the element alone. -/
def Element.contents (e : Element) : Children := e.children?.getD (.items [e])

end IonDocument
