import IonDocument.Element

/-! # The size of an element

The number of values in an element, itself included. It bounds what is needed to load it.
-/
namespace IonDocument

mutual
def Element.size : Element → Nat
  | ⟨_, v, _⟩ => v.size + 1
def Value.size : Value → Nat
  | .null _ => 0
  | .scalar _ => 0
  | .struct fields => fieldsSize fields
  | .list items => itemsSize items
  | .sexp items => itemsSize items
def itemsSize : List Element → Nat
  | [] => 0
  | e :: rest => e.size + itemsSize rest
def fieldsSize : List (Token × Element) → Nat
  | [] => 0
  | (_, e) :: rest => e.size + fieldsSize rest
end

theorem Element.size_pos (e : Element) : 0 < e.size := by
  cases e with
  | mk as v t => exact Nat.succ_pos v.size

theorem length_le_itemsSize (items : List Element) : items.length ≤ itemsSize items := by
  induction items with
  | nil => exact Nat.le_refl 0
  | cons e rest ih =>
    have h := e.size_pos
    simp only [List.length_cons, itemsSize]
    omega

end IonDocument
