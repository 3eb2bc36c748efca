import IonDocument.Element.Children
import IonDocument.Element.Size

/-! # Sizes of children

The children of a container are together one less than the container, so each of them is smaller,
and there are no more of them than their size.
-/
namespace IonDocument

theorem fieldsSize_eq (fields : List (Token × Element)) :
    fieldsSize fields = itemsSize (fields.map Prod.snd) := by
  induction fields with
  | nil => rfl
  | cons f rest ih => exact congrArg (f.2.size + ·) ih

theorem size_le_itemsSize {e : Element} {items : List Element} (h : e ∈ items) :
    e.size ≤ itemsSize items := by
  induction items with
  | nil => cases h
  | cons a rest ih =>
    simp only [itemsSize]
    rcases List.mem_cons.mp h with rfl | h
    · exact Nat.le_add_right _ _
    · have hr := ih h
      omega

theorem Element.size_of_children {e : Element} {children : Children}
    (h : e.children? = some children) : e.size = itemsSize children.elements + 1 := by
  rcases e with ⟨as, v, t⟩
  cases v with
  | null k => cases h
  | scalar x => cases h
  | struct fields =>
    cases h
    exact congrArg (· + 1) (fieldsSize_eq fields)
  | list items =>
    cases h
    rfl
  | sexp items =>
    cases h
    rfl

end IonDocument
