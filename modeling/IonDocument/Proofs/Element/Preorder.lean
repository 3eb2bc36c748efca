import IonDocument.Proofs.Element.Node

/-! # The nodes of an element, in document order

A node is an element together with its name, if it is a field. The nodes of an element are listed
like their paths: first the element itself, then what is in its first child, and so on.
-/
namespace IonDocument

structure Node where
  name? : Option Token
  element : Element

namespace Node

def isFull (node : Node) : Bool := !node.element.isNull

/-- How many values are used up to load the node, apart from what is in it. -/
def uses (node : Node) : Nat := if node.isFull then 1 else 0

end Node

mutual
/-- All nodes of an element that has this name, in document order. -/
def Element.nodes : Element → Option Token → List Node
  | ⟨as, v, t⟩, name? => ⟨name?, ⟨as, v, t⟩⟩ :: v.nodes
def Value.nodes : Value → List Node
  | .null _ => []
  | .scalar _ => []
  | .struct fields => fieldsNodes fields
  | .list items => itemsNodes items
  | .sexp items => itemsNodes items
def itemsNodes : List Element → List Node
  | [] => []
  | e :: rest => e.nodes none ++ itemsNodes rest
def fieldsNodes : List (Token × Element) → List Node
  | [] => []
  | (name, e) :: rest => e.nodes (some name) ++ fieldsNodes rest
end

theorem Element.nodes_eq (e : Element) (name? : Option Token) :
    e.nodes name? = ⟨name?, e⟩ :: e.value.nodes := by
  cases e
  rfl

theorem itemsNodes_eq_flatMap (items : List Element) :
    itemsNodes items = items.flatMap (·.nodes none) := by
  induction items with
  | nil => rfl
  | cons e rest ih => rw [itemsNodes, List.flatMap_cons, ih]

theorem fieldsNodes_eq_flatMap (fields : List (Token × Element)) :
    fieldsNodes fields = fields.flatMap fun field => field.2.nodes (some field.1) := by
  induction fields with
  | nil => rfl
  | cons field rest ih => rw [fieldsNodes, List.flatMap_cons, ih]

/-- Of the nodes without their names, those in a container are those of its children. -/
theorem Element.map_nodes_value {e : Element} {children : Children}
    (h : e.children? = some children) : e.value.nodes.map (some ·.element) =
      children.elements.flatMap fun a => (a.nodes none).map (some ·.element) := by
  rcases e with ⟨as, v, t⟩
  cases v with
  | null k => cases h
  | scalar x => cases h
  | struct fields =>
    cases h
    have hname : ∀ (a : Element) name, (a.nodes (some name)).map (some ·.element) =
        (a.nodes none).map (some ·.element) := by
      intro a name
      rw [nodes_eq, nodes_eq]
      rfl
    simp only [value, Value.nodes, fieldsNodes_eq_flatMap, List.map_flatMap, hname,
      Children.elements, List.flatMap_map]
  | list items | sexp items =>
    cases h
    simp only [value, Value.nodes, itemsNodes_eq_flatMap, List.map_flatMap, Children.elements]

theorem Element.map_at?_itemsPaths {e : Element} {children : Children}
    (hch : e.children? = some children) {items : List Element} {i : Nat}
    (hdrop : children.elements.drop i = items)
    (h : ∀ a ∈ items, a.paths.map a.at? = (a.nodes none).map (some ·.element)) :
    (itemsPaths i items).map e.at? =
      items.flatMap fun a => (a.nodes none).map (some ·.element) := by
  induction items generalizing i with
  | nil => rfl
  | cons a rest ih =>
    obtain ⟨ha, hrest⟩ := List.forall_mem_cons.mp h
    have hget : children.get? i = some a := by
      rw [← Children.getElem?_elements, ← List.head?_drop, hdrop]
      rfl
    have hat : ∀ path, e.at? (i :: path) = a.at? path := by
      intro path
      rw [at?_cons, hch, Option.bind_some, Children.at?, hget, Option.bind_some]
    have hnext := Children.drop_succ_of_drop_eq_cons hdrop
    rw [itemsPaths, List.map_append, List.map_map, List.flatMap_cons, ih hnext hrest, ← ha]
    exact congrArg (· ++ _) (List.map_congr_left fun path _ => hat path)

/-- The nodes are those at the paths, in the order of the paths. -/
theorem Element.map_at?_paths (e : Element) (name? : Option Token) :
    e.paths.map e.at? = (e.nodes name?).map (some ·.element) := by
  induction e using Element.children_induction generalizing name? with
  | h e ih =>
    cases hch : e.children? with
    | none =>
      rcases e with ⟨as, v, t⟩
      cases v <;> first | rfl | cases hch
    | some children =>
      rw [paths_of_children hch, nodes_eq, List.map_cons, List.map_cons, map_nodes_value hch]
      exact congrArg (some e :: ·)
        (map_at?_itemsPaths hch rfl fun a ha => ih children hch a ha none)

end IonDocument
