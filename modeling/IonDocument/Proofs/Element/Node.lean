import IonDocument.Element.Children
import IonDocument.Proofs.Element.Size

/-! # Nodes in document order

A node of an element or of a document is found by its path, which are the positions of the children
to go to, from the outside in. In document order a container stands before what is in it, and a
child with all that is in it before the next child. This is the lexicographic order of the paths.
-/
namespace IonDocument

/-- What holds of an element once it holds of all its children holds of every element. -/
theorem Element.children_induction {motive : Element → Prop}
    (h : ∀ e : Element, (∀ children, e.children? = some children →
      ∀ a ∈ children.elements, motive a) → motive e) (e : Element) : motive e := by
  induction hsize : e.size using Nat.strongRecOn generalizing e with
  | ind n ih =>
    subst hsize
    refine h e ?_
    intro children hch a ha
    have hle := size_le_itemsSize ha
    exact ih a.size (by rw [Element.size_of_children hch]; omega) a rfl

def Element.at? : Element → List Nat → Option Element
  | e, [] => some e
  | e, i :: path => (e.children?.bind (·.get? i)).bind (·.at? path)

/-- A node below one of the children. -/
def Children.at? (children : Children) : List Nat → Option Element
  | [] => none
  | i :: path => (children.get? i).bind (·.at? path)

mutual
/-- The paths of all nodes in document order. -/
def Element.paths : Element → List (List Nat)
  | ⟨_, v, _⟩ => [] :: v.paths
def Value.paths : Value → List (List Nat)
  | .null _ => []
  | .scalar _ => []
  | .struct fields => fieldsPaths 0 fields
  | .list items => itemsPaths 0 items
  | .sexp items => itemsPaths 0 items
def itemsPaths (i : Nat) : List Element → List (List Nat)
  | [] => []
  | e :: rest => e.paths.map (i :: ·) ++ itemsPaths (i + 1) rest
def fieldsPaths (i : Nat) : List (Token × Element) → List (List Nat)
  | [] => []
  | (_, e) :: rest => e.paths.map (i :: ·) ++ fieldsPaths (i + 1) rest
end

def Children.paths (children : Children) : List (List Nat) := itemsPaths 0 children.elements

@[simp] theorem Element.at?_nil (e : Element) : e.at? [] = some e := rfl

theorem Element.at?_cons (e : Element) (i : Nat) (path : List Nat) :
    e.at? (i :: path) = e.children?.bind (·.at? (i :: path)) := by
  rw [at?]
  cases e.children? <;> rfl

theorem Element.at?_append (e : Element) (path rest : List Nat) :
    e.at? (path ++ rest) = (e.at? path).bind (·.at? rest) := by
  induction path generalizing e with
  | nil => rfl
  | cons i path ih =>
    rw [List.cons_append, at?, at?]
    cases e.children?.bind (·.get? i) with
    | none => rfl
    | some a => exact ih a

/-- What is in a node has a path that goes through that of the node. -/
theorem Children.at?_append {children : Children} {path : List Nat} {e : Element}
    (h : children.at? path = some e) (rest : List Nat) :
    children.at? (path ++ rest) = e.at? rest := by
  cases path with
  | nil => cases h
  | cons i path =>
    rw [at?] at h
    rw [List.cons_append, at?]
    cases hi : children.get? i with
    | none => simp [hi] at h
    | some a =>
      simp only [hi, Option.bind_some] at h ⊢
      rw [Element.at?_append, h, Option.bind_some]

theorem fieldsPaths_eq (i : Nat) (fields : List (Token × Element)) :
    fieldsPaths i fields = itemsPaths i (fields.map Prod.snd) := by
  induction fields generalizing i with
  | nil => rfl
  | cons f rest ih =>
    rw [fieldsPaths, List.map_cons, itemsPaths, ih]

theorem Element.paths_of_children {e : Element} {children : Children}
    (h : e.children? = some children) : e.paths = [] :: children.paths := by
  rcases e with ⟨as, v, t⟩
  cases v with
  | null k => cases h
  | scalar x => cases h
  | struct fields =>
    cases h
    exact congrArg ([] :: ·) (fieldsPaths_eq 0 fields)
  | list items =>
    cases h
    rfl
  | sexp items =>
    cases h
    rfl

theorem Element.paths_of_no_children {e : Element} (h : e.children? = none) : e.paths = [[]] := by
  rcases e with ⟨as, v, t⟩
  cases v with
  | null k => rfl
  | scalar x => rfl
  | struct fields => cases h
  | list items => cases h
  | sexp items => cases h

theorem mem_itemsPaths {i : Nat} {items : List Element} {path : List Nat} :
    path ∈ itemsPaths i items ↔
      ∃ j e rest, items[j]? = some e ∧ path = (i + j) :: rest ∧ rest ∈ e.paths := by
  induction items generalizing i with
  | nil => simp [itemsPaths]
  | cons a items ih =>
    simp only [itemsPaths, List.mem_append, List.mem_map, ih]
    constructor
    · rintro (⟨rest, hrest, rfl⟩ | ⟨j, e, rest, hj, rfl, hrest⟩)
      · exact ⟨0, a, rest, rfl, rfl, hrest⟩
      · exact ⟨j + 1, e, rest, hj, by rw [Nat.add_right_comm, Nat.add_assoc], hrest⟩
    · rintro ⟨j, e, rest, hj, rfl, hrest⟩
      cases j with
      | zero =>
        cases hj
        exact .inl ⟨rest, hrest, rfl⟩
      | succ j =>
        exact .inr ⟨j, e, rest, hj, by rw [Nat.add_right_comm, Nat.add_assoc], hrest⟩

theorem Children.cons_mem_paths_iff {children : Children} {i : Nat} {path : List Nat} :
    i :: path ∈ children.paths ↔ ∃ e, children.get? i = some e ∧ path ∈ e.paths := by
  simp [paths, mem_itemsPaths, and_assoc, and_left_comm]

/-- The paths in document order are those of all nodes. -/
theorem Element.mem_paths_iff {e : Element} {path : List Nat} :
    path ∈ e.paths ↔ (e.at? path).isSome := by
  induction path generalizing e with
  | nil =>
    cases h : e.children? with
    | none => simp [paths_of_no_children h]
    | some children => simp [paths_of_children h]
  | cons i path ih =>
    rw [at?_cons]
    cases h : e.children? with
    | none => simp [paths_of_no_children h]
    | some children =>
      simp only [paths_of_children h, List.mem_cons, reduceCtorEq, false_or,
        Children.cons_mem_paths_iff, Option.bind_some, Children.at?]
      cases children.get? i with
      | none => simp
      | some a => simp [ih]

theorem Children.mem_paths_iff {children : Children} {path : List Nat} :
    path ∈ children.paths ↔ (children.at? path).isSome := by
  cases path with
  | nil => simp [paths, mem_itemsPaths, at?]
  | cons i path =>
    rw [cons_mem_paths_iff, at?]
    cases children.get? i with
    | none => simp
    | some a => simp [Element.mem_paths_iff]

theorem pairwise_itemsPaths {items : List Element}
    (h : ∀ e ∈ items, e.paths.Pairwise (· < ·)) (i : Nat) :
    (itemsPaths i items).Pairwise (· < ·) := by
  induction items generalizing i with
  | nil => exact .nil
  | cons e rest ih =>
    obtain ⟨he, hrest⟩ := List.forall_mem_cons.mp h
    rw [itemsPaths, List.pairwise_append]
    refine ⟨?_, ih hrest (i + 1), ?_⟩
    · rw [List.pairwise_map]
      exact he.imp fun hlt => List.cons_lt_cons_iff.mpr (.inr ⟨rfl, hlt⟩)
    · intro p hp q hq
      obtain ⟨p, -, rfl⟩ := List.mem_map.mp hp
      obtain ⟨j, a, q, -, rfl, -⟩ := mem_itemsPaths.mp hq
      exact List.cons_lt_cons_iff.mpr (.inl (by omega))

/-- No path comes twice, and they are in lexicographic order. -/
theorem Element.pairwise_paths (e : Element) : e.paths.Pairwise (· < ·) := by
  induction e using Element.children_induction with
  | h e ih =>
    cases hch : e.children? with
    | none =>
      rw [paths_of_no_children hch]
      exact List.pairwise_singleton _ _
    | some children =>
      rw [paths_of_children hch, List.pairwise_cons]
      refine ⟨?_, pairwise_itemsPaths (ih children hch) 0⟩
      intro p hp
      obtain ⟨j, a, q, -, rfl, -⟩ := mem_itemsPaths.mp hp
      exact List.nil_lt_cons _ _

theorem Children.pairwise_paths (children : Children) : children.paths.Pairwise (· < ·) :=
  pairwise_itemsPaths (fun e _ => e.pairwise_paths) 0

end IonDocument
