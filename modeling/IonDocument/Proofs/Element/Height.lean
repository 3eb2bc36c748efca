import IonDocument.Element.Children

/-! # The height of an element

The height counts how deep containers nest in an element. A null is not a container here, whatever
kind it is declared with, and a container without children is. A depth limit bounds the height
together with the depth at which the element stands.
-/
namespace IonDocument

mutual
def Element.height : Element → Nat
  | ⟨_, v, _⟩ => v.height
def Value.height : Value → Nat
  | .null _ => 0
  | .scalar _ => 0
  | .struct fields => fieldsHeight fields + 1
  | .list items => itemsHeight items + 1
  | .sexp items => itemsHeight items + 1
def itemsHeight : List Element → Nat
  | [] => 0
  | e :: rest => max e.height (itemsHeight rest)
def fieldsHeight : List (Token × Element) → Nat
  | [] => 0
  | (_, e) :: rest => max e.height (fieldsHeight rest)
end

theorem fieldsHeight_eq (fields : List (Token × Element)) :
    fieldsHeight fields = itemsHeight (fields.map Prod.snd) := by
  induction fields with
  | nil => rfl
  | cons f rest ih => exact congrArg (max f.2.height) ih

theorem itemsHeight_le_iff {items : List Element} {n : Nat} :
    itemsHeight items ≤ n ↔ ∀ e ∈ items, e.height ≤ n := by
  induction items with
  | nil => exact ⟨fun _ => nofun, fun _ => Nat.zero_le n⟩
  | cons e rest ih => rw [itemsHeight, Nat.max_le, List.forall_mem_cons, ih]

theorem Element.height_of_children {e : Element} {children : Children}
    (h : e.children? = some children) : e.height = itemsHeight children.elements + 1 := by
  rcases e with ⟨as, v, t⟩
  cases v with
  | null k => cases h
  | scalar x => cases h
  | struct fields =>
    cases h
    exact congrArg (· + 1) (fieldsHeight_eq fields)
  | list items =>
    cases h
    rfl
  | sexp items =>
    cases h
    rfl

/-- Whether a limit on the depth admits an element that stands at a depth. -/
def Element.Fits (limit depth : Nat) (e : Element) : Prop := e.height = 0 ∨ depth + e.height ≤ limit

instance (limit depth : Nat) (e : Element) : Decidable (e.Fits limit depth) :=
  inferInstanceAs (Decidable (_ ∨ _))

/-- A null fits anywhere. -/
theorem Element.fits_of_isNull {e : Element} (h : e.isNull = true) (limit depth : Nat) :
    e.Fits limit depth := by
  rcases e with ⟨as, v, table⟩
  cases v with
  | null k => exact .inl rfl
  | scalar x => cases h
  | struct fields => cases h
  | list items => cases h
  | sexp items => cases h

/-- A container fits where its children may stand, if each of them fits there. -/
theorem Element.fits_iff_of_children {e : Element} {children : Children} {limit depth : Nat}
    (h : e.children? = some children) : e.Fits limit depth ↔
      depth < limit ∧ ∀ a ∈ children.elements, a.Fits limit (depth + 1) := by
  have hheight := height_of_children h
  constructor
  · rintro (h0 | hle)
    · omega
    · have hdepth : depth < limit := by omega
      have hitems : itemsHeight children.elements ≤ limit - (depth + 1) := by omega
      refine ⟨hdepth, fun a ha => .inr ?_⟩
      have ha' := itemsHeight_le_iff.mp hitems a ha
      omega
  · rintro ⟨hdepth, hall⟩
    have hitems : itemsHeight children.elements ≤ limit - (depth + 1) := by
      refine itemsHeight_le_iff.mpr fun a ha => ?_
      rcases hall a ha with h0 | hle <;> omega
    right
    omega

end IonDocument
