import IonDocument.Dialogue
import IonDocument.Element

/-! # Loading an element through a cursor

The value that a cursor is on is read once, from front to back. Annotations and symbol table are
taken before the value itself, since reading may change them; a null is not read at all, a
scalar with the one call of its kind, and a container is stepped into, its children are loaded
one after another, and it is stepped out of. A limit on the depth is checked before each step in.
Depths are counted on from what the cursor shows in natural numbers, which have no largest one, so
that the count cannot overflow. The fuel bounds both the nesting and the number of children of one
container.
-/
namespace IonDocument
namespace Loading
open Dialogue

def checkDepth (limit : Option Nat) (depth : Nat) : Dialogue Unit :=
  match limit with
  | none => pure ()
  | some n => if n < depth then .fail (.tooDeep n) else pure ()

def item (child : Dialogue Element) : Dialogue (Option Element) := do
  match ← ask .advance with
  | none => return none
  | some _ => return some (← child)

/-- The next field. Its name is asked for before its value is loaded. -/
def field (child : Dialogue Element) : Dialogue (Option (Token × Element)) := do
  match ← ask .advance with
  | none => return none
  | some _ =>
    let name ← ask .fieldName
    return some (name, ← child)

/-- Everything inside the container that the cursor is on, whose children are at a depth. -/
def inside {α : Type} (limit : Option Nat) (depth fuel : Nat) (step : Dialogue (Option α)) :
    Dialogue (List α) := do
  checkDepth limit depth
  ask .stepIn
  let got ← gather step fuel []
  ask .stepOut
  return got

def value (limit : Option Nat) (depth fuel : Nat) (child : Dialogue Element) :
    Kind → Dialogue Value
  | .null => .fail (.misreport .nullWithValue)
  | .scalar k => return .scalar ⟨k, ← ask (.read k)⟩
  | .container .struct => return .struct (← inside limit depth fuel (field child))
  | .container .list => return .list (← inside limit depth fuel (item child))
  | .container .sexp => return .sexp (← inside limit depth fuel (item child))

/-- The element that the cursor is on, at a depth. -/
def element (limit : Option Nat) : Nat → Nat → Dialogue Element
  | 0, _ => .unfinished
  | fuel + 1, depth => do
    let view ← observe
    match view.kind? with
    | none => .fail (.misreport .noValue)
    | some kind =>
      let annotations ← ask .annotations
      let v ←
        if view.isNull then pure (.null kind)
        else value limit (depth + 1) fuel (element limit fuel (depth + 1)) kind
      return ⟨annotations, v, view.table⟩

end Loading

/-- The element that a cursor is on. The limit counts from the top of the document. -/
def load (limit : Option Nat) (fuel : Nat) : Dialogue Element := do
  let view ← Dialogue.observe
  Loading.element limit fuel view.depth

end IonDocument
