import IonDocument.Proofs.Cursor.Calls
import IonDocument.Proofs.Walk.Position

/-! # Levels on a stack

A walk has a level on top by its type. On a stack the levels are a list, and each call checks what
it takes for granted: that the list is not empty, that a level without a next child is at its end,
and that a value of a scalar kind has a payload of this kind. What fails such a check is a breach.
On the levels of a walk there is none, and every call does to them what it does to the walk.
-/
namespace IonDocument

/-- All levels, from the top one down to that of the document. -/
def Walk.levels (w : Walk) : List Level := w.top :: w.outer

inductive Breach where
  | noLevel
  | notAtEnd
  | noPayload

structure Stack where
  levels : List Level
  table : Table

namespace Stack

/-- An answer with the stack after it. -/
abbrev Result (α : Type) := Except WalkError α × Stack

def start (document : List Element) (table : Table) : Stack :=
  ⟨[.enter (.items document)], table⟩

def top (s : Stack) : Except Breach Level :=
  match s.levels with
  | [] => .error .noLevel
  | level :: _ => .ok level

def depth (s : Stack) : Except Breach Nat :=
  match s.levels with
  | [] => .error .noLevel
  | _ :: outer => .ok outer.length

def current (s : Stack) : Except Breach (Option Element) := do
  let level ← s.top
  return level.current?

def view (s : Stack) : Except Breach View := do
  let e? ← s.current
  let depth ← s.depth
  return ⟨e?.map Element.kind, e?.any Element.isNull, (e?.map Element.table).getD s.table, depth⟩

def setPlace (s : Stack) (place : Place) : Except Breach Stack :=
  match s.levels with
  | [] => .error .noLevel
  | level :: outer => .ok { s with levels := { level with place := place } :: outer }

def moveTo (s : Stack) (i : Nat) : Except Breach (Result (Option Kind)) := do
  let level ← s.top
  match level.children.get? i with
  | some e => return (.ok (some e.kind), ← s.setPlace (.on i))
  | none =>
    if level.children.size ≤ i then return (.ok none, ← s.setPlace .after)
    else throw .notAtEnd

def annotations (s : Stack) : Except Breach (Result (List Token)) := do
  match ← s.current with
  | none => return (.error .noValue, s)
  | some e => return (.ok e.annotations, s)

def fieldName (s : Stack) : Except Breach (Result Token) := do
  let level ← s.top
  match level.children, level.place with
  | .fields fs, .on i =>
    match fs[i]? with
    | some (name, _) => return (.ok name, s)
    | none => return (.error .noValue, s)
  | .fields _, _ => return (.error .noValue, s)
  | .items _, _ => return (.error .noField, s)

def advance (s : Stack) : Except Breach (Result (Option Kind)) := do
  let level ← s.top
  match level.place with
  | .before => s.moveTo 0
  | .on i => s.moveTo (i + 1)
  | .after => return (.ok none, s)

def push (s : Stack) (children : Children) : Stack :=
  { s with levels := .enter children :: s.levels }

def stepIn (s : Stack) : Except Breach (Result Unit) := do
  match ← s.current with
  | none => return (.error .noValue, s)
  | some e =>
    match e.value with
    | .list items | .sexp items => return (.ok (), s.push (.items items))
    | .struct fields => return (.ok (), s.push (.fields fields))
    | .null kind => return (.error (.isNull kind), s)
    | .scalar x => return (.error (.noContainer (.scalar x.kind)), s)

def stepOut (s : Stack) : Except Breach (Result Unit) :=
  if s.levels.length = 1 then .ok (.error .outermost, s)
  else .ok (.ok (), { s with levels := s.levels.tail })

/-- The current value, if it is one of this kind and not null. -/
def scalar (k : ScalarKind) (s : Stack) : Except Breach (Except WalkError Element) := do
  match ← s.current with
  | none => return .error .noValue
  | some e =>
    if e.isNull then return .error (.isNull e.kind)
    else if e.kind = .scalar k then return .ok e
    else return .error (.wrongKind k e.kind)

def read (k : ScalarKind) (s : Stack) : Except Breach (Result k.Payload) := do
  match ← s.scalar k with
  | .error err => return (.error err, s)
  | .ok e =>
    match e.scalar? k with
    | some p => return (.ok p, s)
    | none => throw .noPayload

def perform : (q : Call) → Stack → Except Breach (Result q.Answer)
  | .annotations, s => s.annotations
  | .fieldName, s => s.fieldName
  | .advance, s => s.advance
  | .stepIn, s => s.stepIn
  | .stepOut, s => s.stepOut
  | .read k, s => s.read k

/-- The answers to a sequence of calls and the stack after it. -/
def performAll : List Call → Stack → Except Breach (List (Answered WalkError) × Stack)
  | [], s => .ok ([], s)
  | q :: calls, s => do
    let (a, s') ← s.perform q
    let (answers, s'') ← s'.performAll calls
    return (⟨q, a⟩ :: answers, s'')

def ofWalk (w : Walk) : Stack := ⟨w.levels, w.table⟩

@[simp] theorem top_ofWalk (w : Walk) : (ofWalk w).top = pure w.top := rfl

@[simp] theorem current_ofWalk (w : Walk) : (ofWalk w).current = pure w.current? := rfl

@[simp] theorem setPlace_ofWalk (w : Walk) (place : Place) :
    (ofWalk w).setPlace place = pure (ofWalk (w.withTop { w.top with place := place })) := rfl

theorem view_ofWalk (w : Walk) : (ofWalk w).view = .ok w.view := rfl

/-- Where there is no child at an index, the level is at its end there. -/
theorem moveTo_ofWalk (w : Walk) (i : Nat) : (ofWalk w).moveTo i =
    pure (.ok ((w.top.moveTo i).current?.map Element.kind), ofWalk (w.withTop (w.top.moveTo i))) := by
  cases h : w.top.children.get? i with
  | some e => simp [moveTo, Level.moveTo, Level.current?, h]
  | none =>
    have hsize : w.top.children.size ≤ i := by
      rw [← Children.getElem?_elements, List.getElem?_eq_none_iff] at h
      exact w.top.children.length_elements ▸ h
    simp [moveTo, Level.moveTo, Level.current?, h, hsize]

theorem advance_ofWalk (w : Walk) :
    (ofWalk w).advance = pure (w.advance.1, ofWalk w.advance.2) := by
  rw [Walk.advance_eq]
  unfold advance Level.advance
  rw [top_ofWalk, pure_bind]
  cases hp : w.top.place with
  | before => exact moveTo_ofWalk w 0
  | on i => exact moveTo_ofWalk w (i + 1)
  | after => simp [Level.current?, hp, Walk.withTop]

theorem annotations_ofWalk (w : Walk) :
    (ofWalk w).annotations = pure (w.annotations, ofWalk w) := by
  unfold annotations Walk.annotations
  rw [current_ofWalk, pure_bind]
  cases w.current? <;> rfl

theorem fieldName_ofWalk (w : Walk) : (ofWalk w).fieldName = pure (w.fieldName, ofWalk w) := by
  unfold fieldName Walk.fieldName
  rw [top_ofWalk, pure_bind]
  cases w.top.children with
  | items items => rfl
  | fields fields =>
    cases w.top.place with
    | before => rfl
    | on i => cases h : fields[i]? <;> simp [h]
    | after => rfl

theorem stepIn_ofWalk (w : Walk) : (ofWalk w).stepIn = pure (w.stepIn.1, ofWalk w.stepIn.2) := by
  unfold stepIn Walk.stepIn
  rw [current_ofWalk, pure_bind]
  cases w.current? with
  | none => rfl
  | some e =>
    rcases e with ⟨as, v, t⟩
    cases v <;> rfl

theorem stepOut_ofWalk (w : Walk) :
    (ofWalk w).stepOut = pure (w.stepOut.1, ofWalk w.stepOut.2) := by
  rcases w with ⟨top, outer, table⟩
  cases outer <;> rfl

/-- A value of a scalar kind that is not null has a payload of this kind. -/
theorem read_ofWalk (k : ScalarKind) (w : Walk) :
    (ofWalk w).read k = pure ((w.read k).1, ofWalk (w.read k).2) := by
  unfold read scalar Walk.read
  rw [current_ofWalk, pure_bind]
  cases w.current? with
  | none => rfl
  | some e =>
    rcases e with ⟨as, v, t⟩
    cases v with
    | null kind => rfl
    | scalar x =>
      rcases x with ⟨kind, p⟩
      by_cases hk : kind = k
      · subst hk
        simp [Element.isNull, Value.isNull, Element.kind, Value.kind, Element.scalar?]
      · have hne : Scalar.payload? ⟨kind, p⟩ k = none := Scalar.payload?_of_ne hk
        simp [Element.isNull, Value.isNull, Element.kind, Value.kind, Element.scalar?, hk, hne]
    | struct fields => rfl
    | list items => rfl
    | sexp items => rfl

theorem perform_ofWalk (q : Call) (w : Walk) : (ofWalk w).perform q =
    pure ((Walk.cursor.perform q w).1, ofWalk (Walk.cursor.perform q w).2) := by
  cases q with
  | annotations => exact annotations_ofWalk w
  | fieldName => exact fieldName_ofWalk w
  | advance => exact advance_ofWalk w
  | stepIn => exact stepIn_ofWalk w
  | stepOut => exact stepOut_ofWalk w
  | read k => exact read_ofWalk k w

/-- No sequence of calls comes to a breach, and all calls are answered as those to the walk. -/
theorem performAll_ofWalk (calls : List Call) (w : Walk) : (ofWalk w).performAll calls =
    .ok (Walk.cursor.answers calls w, ofWalk (Walk.cursor.after calls w)) := by
  induction calls generalizing w with
  | nil => rfl
  | cons q calls ih =>
    rw [performAll, perform_ofWalk, pure_bind]
    dsimp only
    rw [ih]
    rfl

end Stack
end IonDocument
