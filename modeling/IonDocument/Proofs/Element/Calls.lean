import IonDocument.Cursor
import IonDocument.Proofs.Element.Preorder
import Mathlib.Algebra.GroupWithZero.Nat
import Mathlib.Data.List.Perm.Basic

/-! # The calls that an element takes

An element determines the calls by which it is loaded. They follow its nodes in document order, and
each node takes its part of them once: its name if it is a field, its annotations, and what its value
takes. A container is entered before its children and left after them, when one more advance has
found the end.
-/
namespace IonDocument

mutual
/-- The calls by which an element is loaded, in their order. -/
def Element.calls : Element → List Call
  | ⟨_, v, _⟩ => .annotations :: v.calls
def Value.calls : Value → List Call
  | .null _ => []
  | .scalar s => [.read s.kind]
  | .struct fields => .stepIn :: (fieldsCalls fields ++ [.advance, .stepOut])
  | .list items => .stepIn :: (itemsCalls items ++ [.advance, .stepOut])
  | .sexp items => .stepIn :: (itemsCalls items ++ [.advance, .stepOut])
def itemsCalls : List Element → List Call
  | [] => []
  | e :: rest => .advance :: e.calls ++ itemsCalls rest
def fieldsCalls : List (Token × Element) → List Call
  | [] => []
  | (_, e) :: rest => .advance :: .fieldName :: e.calls ++ fieldsCalls rest
end

/-- The calls up to the first child, if there is one. -/
def Value.opening : Value → List Call
  | .null _ => []
  | .scalar s => [.read s.kind]
  | _ => [.stepIn]

/-- The calls after the last child. -/
def Value.closing : Value → List Call
  | .null _ => []
  | .scalar _ => []
  | _ => [.advance, .stepOut]

namespace Node

def opening (node : Node) : List Call :=
  (node.name?.map fun _ => Call.fieldName).toList ++ .annotations :: node.element.value.opening

/-- The calls that the node takes when it is the child of another, what is in it left out. -/
def share (node : Node) : List Call := .advance :: (node.opening ++ node.element.value.closing)

def isScalar (k : ScalarKind) (node : Node) : Bool :=
  node.isFull && decide (node.element.kind = .scalar k)

def isContainer (node : Node) : Bool := node.isFull && node.element.kind.isContainer

end Node

theorem itemsCalls_eq_flatMap (items : List Element) :
    itemsCalls items = items.flatMap fun e => .advance :: e.calls := by
  induction items with
  | nil => rfl
  | cons e rest ih => rw [itemsCalls, List.flatMap_cons, ih]

theorem fieldsCalls_eq_flatMap (fields : List (Token × Element)) :
    fieldsCalls fields = fields.flatMap fun field => .advance :: .fieldName :: field.2.calls := by
  induction fields with
  | nil => rfl
  | cons field rest ih => rw [fieldsCalls, List.flatMap_cons, ih]

/-- The calls that come after children: those that move on to the next one, and out. -/
def Call.isLater (q : Call) : Bool := q == .advance || q == .stepOut

mutual
/-- All other calls are made node by node, in document order. -/
theorem Element.filter_calls (e : Element) (name? : Option Token) :
    ((name?.map fun _ => Call.fieldName).toList ++ e.calls).filter (!·.isLater) =
      (e.nodes name?).flatMap Node.opening := by
  rcases e with ⟨as, v, t⟩
  have hv := v.filter_calls
  cases name? with
  | none => exact congrArg (Call.annotations :: ·) hv
  | some name => exact congrArg (Call.fieldName :: .annotations :: ·) hv
theorem Value.filter_calls (v : Value) :
    v.calls.filter (!·.isLater) = v.opening ++ v.nodes.flatMap Node.opening := by
  have hclosing : [Call.advance, .stepOut].filter (!·.isLater) = [] := rfl
  cases v with
  | null k => rfl
  | scalar s => rfl
  | struct fields =>
    have h := filter_fieldsCalls fields
    rw [Value.calls, List.filter_cons_of_pos rfl, List.filter_append, hclosing, List.append_nil, h]
    rfl
  | list items | sexp items =>
    have h := filter_itemsCalls items
    rw [Value.calls, List.filter_cons_of_pos rfl, List.filter_append, hclosing, List.append_nil, h]
    rfl
theorem filter_itemsCalls (items : List Element) :
    (itemsCalls items).filter (!·.isLater) = (itemsNodes items).flatMap Node.opening := by
  cases items with
  | nil => rfl
  | cons e rest =>
    have he := e.filter_calls none
    have hrest := filter_itemsCalls rest
    rw [itemsCalls, itemsNodes, List.filter_append, List.flatMap_append, hrest, ← he]
    rfl
theorem filter_fieldsCalls (fields : List (Token × Element)) :
    (fieldsCalls fields).filter (!·.isLater) = (fieldsNodes fields).flatMap Node.opening := by
  rcases fields with _ | ⟨⟨name, e⟩, rest⟩
  · rfl
  · have he := e.filter_calls (some name)
    have hrest := filter_fieldsCalls rest
    rw [fieldsCalls, fieldsNodes, List.filter_append, List.flatMap_append, hrest, ← he]
    rfl
end

mutual
/-- Together with the advance that lands on the element, and in some order, the calls are the shares
of its nodes. -/
theorem Element.calls_perm (e : Element) (name? : Option Token) :
    (Call.advance :: ((name?.map fun _ => Call.fieldName).toList ++ e.calls)).Perm
      ((e.nodes name?).flatMap Node.share) := by
  rcases e with ⟨as, v, t⟩
  have hv := (v.calls_perm.cons Call.annotations).append_left
    (name?.map fun _ => Call.fieldName).toList
  rw [Element.nodes_eq, List.flatMap_cons]
  simp only [Node.share, Node.opening, List.append_assoc, List.cons_append]
  exact hv.cons .advance
theorem Value.calls_perm (v : Value) :
    v.calls.Perm (v.opening ++ (v.closing ++ v.nodes.flatMap Node.share)) := by
  cases v with
  | null k => exact .nil
  | scalar s => exact .refl _
  | struct fields =>
    have h := fieldsCalls_perm fields
    exact ((h.append_right _).trans List.perm_append_comm).cons .stepIn
  | list items | sexp items =>
    have h := itemsCalls_perm items
    exact ((h.append_right _).trans List.perm_append_comm).cons .stepIn
theorem itemsCalls_perm (items : List Element) :
    (itemsCalls items).Perm ((itemsNodes items).flatMap Node.share) := by
  cases items with
  | nil => exact .nil
  | cons e rest =>
    rw [itemsCalls, itemsNodes, List.flatMap_append]
    exact (e.calls_perm none).append (itemsCalls_perm rest)
theorem fieldsCalls_perm (fields : List (Token × Element)) :
    (fieldsCalls fields).Perm ((fieldsNodes fields).flatMap Node.share) := by
  rcases fields with _ | ⟨⟨name, e⟩, rest⟩
  · exact .nil
  · rw [fieldsCalls, fieldsNodes, List.flatMap_append]
    exact (e.calls_perm (some name)).append (fieldsCalls_perm rest)
end

/-- How often a node takes a call. -/
def Node.times (node : Node) : Call → Nat
  | .annotations => 1
  | .fieldName => if node.name?.isSome then 1 else 0
  | .advance => 1 + if node.isContainer then 1 else 0
  | .stepIn | .stepOut => if node.isContainer then 1 else 0
  | .read k => if node.isScalar k then 1 else 0

theorem Node.count_share (node : Node) (q : Call) : node.share.count q = node.times q := by
  rcases node with ⟨_ | name, as, v, t⟩ <;> cases v with
  | scalar s =>
    cases q with
    | read k =>
      simp [share, opening, times, isScalar, isFull, Element.isNull, Element.kind, Value.isNull,
        Value.kind, Value.opening, Value.closing, List.count_cons]
    | _ => rfl
  | _ => cases q <;> rfl

/-- A call that each node takes `n` times, and those with `P` once more. -/
theorem sum_times {q : Call} {n : Nat} {P : Node → Bool}
    (h : ∀ node : Node, node.times q = n + if P node then 1 else 0) (nodes : List Node) :
    (nodes.map (·.times q)).sum = n * nodes.length + nodes.countP P := by
  induction nodes with
  | nil => rfl
  | cons node rest ih =>
    rw [List.map_cons, List.sum_cons, ih, h, List.countP_cons, List.length_cons, Nat.mul_succ]
    omega

namespace Element

theorem count_calls (e : Element) (q : Call) :
    (Call.advance :: e.calls).count q = ((e.nodes none).map (·.times q)).sum := by
  have hcount := (e.calls_perm none).count_eq q
  simp only [List.count_flatMap, Function.comp_def, Node.count_share] at hcount
  exact hcount

/-- A call that only some nodes take, and these once. -/
theorem count_calls_of_some (e : Element) {q : Call} (hq : q ≠ .advance) {P : Node → Bool}
    (h : ∀ node : Node, node.times q = if P node then 1 else 0) :
    e.calls.count q = (e.nodes none).countP P := by
  have hsum := sum_times (n := 0) (fun node => (h node).trans (Nat.zero_add _).symm) (e.nodes none)
  rw [Nat.zero_mul, Nat.zero_add] at hsum
  rw [← hsum, ← e.count_calls q, List.count_cons_of_ne hq.symm]

theorem count_annotations (e : Element) : e.calls.count .annotations = (e.nodes none).length := by
  rw [e.count_calls_of_some (q := .annotations) nofun (P := fun _ => true) fun _ => rfl]
  exact congrFun List.countP_true _

/-- Every node but the element itself is advanced to, and every container once more. -/
theorem count_advance (e : Element) :
    e.calls.count .advance = e.value.nodes.length + (e.nodes none).countP Node.isContainer := by
  have hcount := e.count_calls .advance
  rw [sum_times (q := .advance) (n := 1) (fun _ => rfl), List.count_cons_self, Nat.one_mul,
    nodes_eq, List.length_cons] at hcount
  rw [nodes_eq]
  omega

end Element

end IonDocument
