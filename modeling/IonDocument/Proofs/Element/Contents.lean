import IonDocument.Element.Children

/-! # Taking the contents of an element

The contents are taken in one of three ways: item by item, field by field, or as the element alone. All
three come to taking the head off one list, again and again, and to nothing for ever when it is empty;
and what is left is counted exactly at each moment.
-/
namespace IonDocument

/-- What is left of the contents of an element: of a sequence or of the fields of a struct, or the
element itself until it is taken. -/
inductive Contents where
  | items (rest : List Element)
  | fields (rest : List (Token × Element))
  | alone (slot : Option Element)

namespace Contents

def of (e : Element) : Contents :=
  match e.value with
  | .list es | .sexp es => .items es
  | .struct fs => .fields fs
  | _ => .alone (some e)

def next : Contents → Option Element × Contents
  | .items rest => (rest.head?, .items rest.tail)
  | .fields rest => (rest.head?.map Prod.snd, .fields rest.tail)
  | .alone slot => (slot, .alone none)

/-- A lower and an upper bound of what is left. -/
def sizeHint (c : Contents) : Nat × Option Nat :=
  let n := match c with
    | .items rest => rest.length
    | .fields rest => rest.length
    | .alone slot => slot.isSome.toNat
  (n, some n)

/-- The number of what is left, as long as the bounds agree on it. -/
def size? (c : Contents) : Option Nat :=
  if c.sizeHint.2 = some c.sizeHint.1 then some c.sizeHint.1 else none

def elements : Contents → List Element
  | .items rest => rest
  | .fields rest => rest.map Prod.snd
  | .alone slot => slot.toList

theorem fst_next (c : Contents) : c.next.1 = c.elements.head? := by
  cases c with
  | items rest => rfl
  | fields rest => exact List.head?_map.symm
  | alone slot => cases slot <;> rfl

theorem elements_snd_next (c : Contents) : c.next.2.elements = c.elements.tail := by
  cases c with
  | items rest => rfl
  | fields rest => exact List.map_tail
  | alone slot => cases slot <;> rfl

theorem sizeHint_eq (c : Contents) : c.sizeHint = (c.elements.length, some c.elements.length) := by
  cases c with
  | items rest => rfl
  | fields rest => simp [sizeHint, elements]
  | alone slot => cases slot <;> rfl

theorem size?_eq (c : Contents) : c.size? = some c.elements.length := by
  rw [size?, sizeHint_eq, if_pos rfl]

end Contents

/-- The children of a container that is not null, and otherwise the element itself. -/
def Element.parts (e : Element) : List Element := (e.children?.map Children.elements).getD [e]

theorem Contents.elements_of (e : Element) : (of e).elements = e.parts := by
  rcases e with ⟨as, v, t⟩
  cases v <;> rfl

theorem Element.elements_contents (e : Element) : e.contents.elements = e.parts := by
  rcases e with ⟨as, v, t⟩
  cases v <;> rfl

theorem Element.parts_of_children {e : Element} {children : Children}
    (h : e.children? = some children) : e.parts = children.elements := by
  simp [parts, h]

/-- The answers to a number of requests, and what there is after them. -/
def takeNext {σ : Type} (next : σ → Option Element × σ) : Nat → σ → List (Option Element) × σ
  | 0, s => ([], s)
  | k + 1, s => ((next s).1 :: (takeNext next k (next s).2).1, (takeNext next k (next s).2).2)

/-- The first of some elements, and nothing for each request that there are too few of them for. -/
def firstOf (k : Nat) (es : List Element) : List (Option Element) :=
  (es.take k).map some ++ List.replicate (k - es.length) none

theorem firstOf_succ (k : Nat) (es : List Element) :
    firstOf (k + 1) es = es.head? :: firstOf k es.tail := by
  cases es with
  | nil => simp [firstOf, List.replicate_succ]
  | cons e es => simp [firstOf]

section
variable {σ : Type} {next : σ → Option Element × σ} {left : σ → List Element}
  (hhead : ∀ s, (next s).1 = (left s).head?) (htail : ∀ s, left (next s).2 = (left s).tail)
include hhead htail

/-- Whatever takes the head off a list hands out the list, and keeps what is left of it. -/
theorem takeNext_eq (k : Nat) (s : σ) :
    (takeNext next k s).1 = firstOf k (left s) ∧ left (takeNext next k s).2 = (left s).drop k := by
  induction k generalizing s with
  | zero => exact ⟨by simp [takeNext, firstOf], rfl⟩
  | succ k ih =>
    obtain ⟨hanswers, hleft⟩ := ih (next s).2
    rw [htail] at hanswers hleft
    constructor
    · rw [takeNext, firstOf_succ, hhead, hanswers]
    · rw [takeNext, hleft, List.drop_tail]

end

theorem takeNext_of (e : Element) (k : Nat) :
    (takeNext Contents.next k (.of e)).1 = firstOf k e.parts ∧
      (takeNext Contents.next k (.of e)).2.elements = e.parts.drop k := by
  rw [← Contents.elements_of]
  exact takeNext_eq Contents.fst_next Contents.elements_snd_next k (.of e)

theorem takeNext_contents (e : Element) (k : Nat) :
    (takeNext Children.next k e.contents).1 = firstOf k e.parts ∧
      (takeNext Children.next k e.contents).2.elements = e.parts.drop k := by
  rw [← e.elements_contents]
  exact takeNext_eq Children.fst_next Children.elements_snd_next k e.contents

end IonDocument
