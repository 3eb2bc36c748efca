import IonDocument.Cursor
import IonDocument.Element.Children

/-! # Walking a document in memory

A walk is a cursor over elements that are already there. Its state is a stack of levels, one for
each container that was stepped into and one for the document itself, and each level is before
its children, on one of them, or after them. Under a value its own symbol table is in effect, and
elsewhere the one that the walk was started with.
-/
namespace IonDocument

inductive WalkError where
  | noValue
  | wrongKind (expected : ScalarKind) (found : Kind)
  | isNull (kind : Kind)
  | noContainer (kind : Kind)
  | noField
  | outermost
  deriving DecidableEq

def WalkError.message : WalkError → String
  | .noValue => "cursor is not positioned on a value"
  | .wrongKind expected found =>
    "expected a " ++ (Kind.scalar expected).keyword ++ " value, found " ++ found.keyword
  | .isNull kind => "cannot read the payload of null." ++ kind.keyword
  | .noContainer kind => "cannot step into a " ++ kind.keyword ++ " value"
  | .noField => "current value is not inside a struct"
  | .outermost => "cannot step out of the top level"

inductive Place where
  | before
  | on (index : Nat)
  | after
  deriving DecidableEq

structure Level where
  children : Children
  place : Place

namespace Level

def enter (children : Children) : Level := ⟨children, .before⟩

def current? (f : Level) : Option Element :=
  match f.place with
  | .on i => f.children.get? i
  | _ => none

/-- Goes to a child, or behind the last one. -/
def moveTo (f : Level) (i : Nat) : Level :=
  match f.children.get? i with
  | some _ => { f with place := .on i }
  | none => { f with place := .after }

def advance (f : Level) : Level :=
  match f.place with
  | .before => f.moveTo 0
  | .on i => f.moveTo (i + 1)
  | .after => f

def remaining (f : Level) : List Element :=
  match f.place with
  | .before => f.children.elements
  | .on i => f.children.elements.drop (i + 1)
  | .after => []

theorem moveTo_of_drop_nil {f : Level} {i : Nat} (h : f.children.elements.drop i = []) :
    f.moveTo i = { f with place := .after } := by
  have hg : f.children.get? i = none := by
    rw [← Children.getElem?_elements]
    exact List.getElem?_eq_none (List.drop_eq_nil_iff.mp h)
  simp [moveTo, hg]

theorem moveTo_of_drop_cons {f : Level} {i : Nat} {e : Element} {rest : List Element}
    (h : f.children.elements.drop i = e :: rest) :
    f.moveTo i = { f with place := .on i } ∧ f.children.get? i = some e ∧
      f.children.elements.drop (i + 1) = rest := by
  have hg : f.children.get? i = some e := by
    rw [← Children.getElem?_elements, ← List.head?_drop, h]
    rfl
  refine ⟨?_, hg, Children.drop_succ_of_drop_eq_cons h⟩
  simp [moveTo, hg]

/-- At the end, advancing goes behind the last child. -/
theorem advance_of_remaining_nil {f : Level} (h : f.remaining = []) :
    f.advance = { f with place := .after } := by
  cases f with
  | mk children place =>
    cases place with
    | before => exact moveTo_of_drop_nil (i := 0) h
    | on i => exact moveTo_of_drop_nil h
    | after => rfl

/-- Otherwise it lands on the next child, which then no longer remains. -/
theorem advance_of_remaining_cons {f : Level} {e : Element} {rest : List Element}
    (h : f.remaining = e :: rest) :
    f.advance.current? = some e ∧ f.advance.remaining = rest ∧
      f.advance.children = f.children := by
  cases f with
  | mk children place =>
    cases place with
    | before =>
      obtain ⟨hm, hg, hr⟩ := moveTo_of_drop_cons (f := ⟨children, .before⟩) (i := 0) h
      simp only [advance, hm]
      exact ⟨hg, hr, trivial⟩
    | on i =>
      obtain ⟨hm, hg, hr⟩ := moveTo_of_drop_cons (f := ⟨children, .on i⟩) (i := i + 1) h
      simp only [advance, hm]
      exact ⟨hg, hr, trivial⟩
    | after => cases h

end Level

/-- The level of the document is the last of the outer ones, or the top one if there is no
other. -/
structure Walk where
  top : Level
  outer : List Level
  table : Table

namespace Walk

def start (document : List Element) (table : Table) : Walk :=
  ⟨.enter (.items document), [], table⟩

def current? (w : Walk) : Option Element := w.top.current?

def view (w : Walk) : View where
  kind? := w.current?.map Element.kind
  isNull := w.current?.any Element.isNull
  table := (w.current?.map Element.table).getD w.table
  depth := w.outer.length

def annotations (w : Walk) : Except WalkError (List Token) :=
  match w.current? with
  | none => .error .noValue
  | some e => .ok e.annotations

def fieldName (w : Walk) : Except WalkError Token :=
  match w.top.children, w.top.place with
  | .items _, _ => .error .noField
  | .fields fs, .on i =>
    match fs[i]? with
    | some (name, _) => .ok name
    | none => .error .noValue
  | .fields _, _ => .error .noValue

def advance (w : Walk) : Except WalkError (Option Kind) × Walk :=
  let w' := { w with top := w.top.advance }
  (.ok (w'.current?.map Element.kind), w')

def stepIn (w : Walk) : Except WalkError Unit × Walk :=
  match w.current? with
  | none => (.error .noValue, w)
  | some e =>
    match e.children? with
    | some children => (.ok (), { w with top := .enter children, outer := w.top :: w.outer })
    | none => (.error (if e.isNull then .isNull e.kind else .noContainer e.kind), w)

def stepOut (w : Walk) : Except WalkError Unit × Walk :=
  match w.outer with
  | [] => (.error .outermost, w)
  | level :: outer => (.ok (), { w with top := level, outer := outer })

def read (k : ScalarKind) (w : Walk) : Except WalkError k.Payload × Walk :=
  match w.current? with
  | none => (.error .noValue, w)
  | some e =>
    match e.scalar? k with
    | some p => (.ok p, w)
    | none => (.error (if e.isNull then .isNull e.kind else .wrongKind k e.kind), w)

def cursor : Cursor Walk WalkError where
  view := view
  annotations := annotations
  fieldName := fieldName
  advance := advance
  stepIn := stepIn
  stepOut := stepOut
  read := read

end Walk
end IonDocument
