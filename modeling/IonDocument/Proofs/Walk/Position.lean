import IonDocument.Element.Fields
import IonDocument.Walk

/-! # Positions on a level

A level is followed by counting the children that were passed since some moment. Passing one
more child lands on the next of those that remained, and when none remains the level is finished.
-/
namespace IonDocument
namespace Level

/-- The index of the child that comes next. -/
def nextIndex (f : Level) : Nat :=
  match f.place with
  | .before => 0
  | .on i => i + 1
  | .after => f.children.size

/-- The level after `n` more children, on the last of them; where it was if there are none. -/
def pass (f : Level) : Nat → Level
  | 0 => f
  | n + 1 => { f with place := .on (f.nextIndex + n) }

/-- The level behind its last child. -/
def finish (f : Level) : Level := { f with place := .after }

@[simp] theorem children_pass (f : Level) (n : Nat) : (f.pass n).children = f.children := by
  cases n <;> rfl

@[simp] theorem nextIndex_pass (f : Level) (n : Nat) : (f.pass n).nextIndex = f.nextIndex + n := by
  cases n <;> rfl

theorem pass_one_pass (f : Level) (n : Nat) : (f.pass n).pass 1 = f.pass (n + 1) := by
  cases n <;> rfl

@[simp] theorem finish_pass (f : Level) (n : Nat) : (f.pass n).finish = f.finish := by
  cases n <;> rfl

theorem remaining_eq_drop (f : Level) : f.remaining = f.children.elements.drop f.nextIndex := by
  cases f with
  | mk children place =>
    cases place with
    | before => rfl
    | on i => rfl
    | after => exact (List.drop_eq_nil_of_le (Nat.le_of_eq children.length_elements)).symm

@[simp] theorem remaining_pass (f : Level) (n : Nat) :
    (f.pass n).remaining = f.remaining.drop n := by
  simp only [remaining_eq_drop, children_pass, nextIndex_pass, List.drop_drop]

theorem advance_eq_finish {f : Level} (h : f.remaining = []) : f.advance = f.finish :=
  advance_of_remaining_nil h

theorem advance_eq_pass {f : Level} {e : Element} {rest : List Element}
    (h : f.remaining = e :: rest) : f.advance = f.pass 1 := by
  cases f with
  | mk children place =>
    cases place with
    | before => exact (moveTo_of_drop_cons (i := 0) h).1
    | on i => exact (moveTo_of_drop_cons (i := i + 1) h).1
    | after => cases h

/-- On the next child. -/
theorem current?_pass_one {f : Level} {e : Element} {rest : List Element}
    (h : f.remaining = e :: rest) : (f.pass 1).current? = some e := by
  rw [← advance_eq_pass h]
  exact (advance_of_remaining_cons h).1

end Level

namespace Walk

/-- The same walk with another level on top. -/
def withTop (w : Walk) (level : Level) : Walk := { w with top := level }

theorem withTop_pass_one (w : Walk) (n : Nat) :
    (w.withTop (w.top.pass n)).withTop ((w.top.pass n).pass 1) = w.withTop (w.top.pass (n + 1)) :=
  congrArg w.withTop (Level.pass_one_pass w.top n)

theorem withTop_finish (w : Walk) (n : Nat) :
    (w.withTop (w.top.pass n)).withTop (w.top.pass n).finish = w.withTop w.top.finish :=
  congrArg w.withTop (Level.finish_pass w.top n)

/-- The walk inside the container it was on. -/
def inside (w : Walk) (level : Level) : Walk := ⟨level, w.top :: w.outer, w.table⟩

theorem advance_eq (w : Walk) :
    w.advance = (.ok (w.top.advance.current?.map Element.kind), w.withTop w.top.advance) := rfl

/-- Advancing over a level with children left reports the kind of the next one and is on it. -/
theorem advance_of_cons {w : Walk} {e : Element} {rest : List Element}
    (h : w.top.remaining = e :: rest) :
    w.advance = (.ok (some e.kind), w.withTop (w.top.pass 1)) := by
  rw [advance_eq, Level.advance_eq_pass h, Level.current?_pass_one h]
  rfl

theorem advance_of_nil {w : Walk} (h : w.top.remaining = []) :
    w.advance = (.ok none, w.withTop w.top.finish) := by
  rw [advance_eq, Level.advance_eq_finish h]
  rfl

theorem stepIn_of_children {w : Walk} {e : Element} {children : Children}
    (h : w.current? = some e) (hc : e.children? = some children) :
    w.stepIn = (.ok (), w.inside (.enter children)) := by
  simp [stepIn, h, hc, inside]

/-- On a field, the name is the one in the row of the field. -/
theorem fieldName_pass (w : Walk) {fields : Fields} {n : Nat} {name : Token} {e : Element}
    (h : fields[n]? = some (name, e)) :
    (w.inside ((Level.enter (.fields fields)).pass (n + 1))).fieldName = .ok name := by
  simp [fieldName, inside, Level.enter, Level.pass, Level.nextIndex, h]

theorem stepOut_inside (w : Walk) (level : Level) : (w.inside level).stepOut = (.ok (), w) := rfl

end Walk
end IonDocument
