import IonDocument.Proofs.Element.Node
import Mathlib.Logic.Basic
import Mathlib.Logic.Relation

/-! # Normal forms

The normal form of an element forgets what does not count in the data model: the symbol table of
every node, and the id of every token that has a text. Two elements are the same if and only if
their normal forms are equal, and nothing else that distinguishes them is ever forgotten.
-/
namespace IonDocument

def Token.normal (a : Token) : Token :=
  match a.text with
  | some text => ⟨some text, none⟩
  | none => a

def Scalar.normal : Scalar → Scalar
  | ⟨.symbol, token⟩ => ⟨.symbol, Token.normal token⟩
  | s => s

mutual
def Element.normal : Element → Element
  | ⟨as, v, _⟩ => ⟨as.map Token.normal, v.normal, .system⟩
def Value.normal : Value → Value
  | .null k => .null k
  | .scalar s => .scalar s.normal
  | .struct fields => .struct (normalFields fields)
  | .list items => .list (normalItems items)
  | .sexp items => .sexp (normalItems items)
def normalItems : List Element → List Element
  | [] => []
  | e :: rest => e.normal :: normalItems rest
def normalFields : List (Token × Element) → List (Token × Element)
  | [] => []
  | (name, e) :: rest => (name.normal, e.normal) :: normalFields rest
end

mutual
/-- The element with other symbol tables, each chosen by the path of its node and the table there. -/
def Element.withTables : Element → (List Nat → Table → Table) → Element
  | ⟨as, v, t⟩, choose => ⟨as, v.withTables choose, choose [] t⟩
def Value.withTables : Value → (List Nat → Table → Table) → Value
  | .null k, _ => .null k
  | .scalar s, _ => .scalar s
  | .struct fields, choose => .struct (fieldsWithTables 0 fields choose)
  | .list items, choose => .list (itemsWithTables 0 items choose)
  | .sexp items, choose => .sexp (itemsWithTables 0 items choose)
def itemsWithTables (i : Nat) : List Element → (List Nat → Table → Table) → List Element
  | [], _ => []
  | e :: rest, choose =>
    e.withTables (fun path => choose (i :: path)) :: itemsWithTables (i + 1) rest choose
def fieldsWithTables (i : Nat) :
    List (Token × Element) → (List Nat → Table → Table) → List (Token × Element)
  | [], _ => []
  | (name, e) :: rest, choose =>
    (name, e.withTables fun path => choose (i :: path)) :: fieldsWithTables (i + 1) rest choose
end

/-- What tells apart the forms of a value: its kind, and whether it is a null of that kind. -/
def Element.shape (e : Element) : Kind × Bool := (e.kind, e.isNull)

theorem Token.same_iff {a b : Token} : a.same b = true ↔ a.normal = b.normal := by
  rcases a with ⟨_ | s, i⟩ <;> rcases b with ⟨_ | t, j⟩ <;> simp [same, normal]

theorem Token.sameAll_iff {as bs : List Token} :
    sameAll as bs = true ↔ as.map normal = bs.map normal := by
  induction as generalizing bs with
  | nil => cases bs <;> simp [sameAll]
  | cons a as ih => cases bs <;> simp [sameAll, same_iff, ih]

theorem Scalar.kind_normal (s : Scalar) : s.normal.kind = s.kind := by
  rcases s with ⟨k, p⟩
  cases k <;> rfl

theorem Scalar.normal_of_ne {s : Scalar} (h : s.kind ≠ .symbol) : s.normal = s := by
  rcases s with ⟨k, p⟩
  cases k with
  | symbol => exact absurd rfl h
  | _ => rfl

/-- Only two symbols can be the same without being equal. -/
theorem Scalar.same_eq_decide {a b : Scalar} (h : ¬ (a.kind = .symbol ∧ b.kind = .symbol)) :
    a.same b = decide (a = b) := by
  unfold same
  split
  · exact absurd ⟨rfl, rfl⟩ h
  · rfl

theorem Scalar.same_iff {a b : Scalar} : a.same b = true ↔ a.normal = b.normal := by
  by_cases h : a.kind = .symbol ∧ b.kind = .symbol
  · obtain ⟨ha, hb⟩ := h
    rcases a with ⟨k, p⟩
    rcases b with ⟨l, q⟩
    obtain rfl : k = .symbol := ha
    obtain rfl : l = .symbol := hb
    simp [same, normal, Token.same_iff]
  · rw [same_eq_decide h, decide_eq_true_iff]
    refine ⟨congrArg normal, ?_⟩
    intro hnormal
    have hkind : a.kind = b.kind := by rw [← a.kind_normal, hnormal, b.kind_normal]
    have ha : a.kind ≠ .symbol := fun ha => h ⟨ha, hkind.symm.trans ha⟩
    rwa [normal_of_ne ha, normal_of_ne (hkind ▸ ha)] at hnormal

mutual
theorem Element.same_iff : (a b : Element) → (a.same b = true ↔ a.normal = b.normal)
  | ⟨as, v, _⟩, ⟨bs, w, _⟩ => by
    simp [Element.same, Element.normal, Token.sameAll_iff, Value.same_iff v w]
theorem Value.same_iff : (v w : Value) → (v.same w = true ↔ v.normal = w.normal)
  | .null k, w => by cases w <;> simp [Value.same, Value.normal]
  | .scalar s, w => by cases w <;> simp [Value.same, Value.normal, Scalar.same_iff]
  | .struct fields, w => by cases w <;> simp [Value.same, Value.normal, sameFields_iff fields]
  | .list items, w => by cases w <;> simp [Value.same, Value.normal, sameItems_iff items]
  | .sexp items, w => by cases w <;> simp [Value.same, Value.normal, sameItems_iff items]
theorem sameItems_iff : (as bs : List Element) →
    (sameItems as bs = true ↔ normalItems as = normalItems bs)
  | [], bs => by cases bs <;> simp [sameItems, normalItems]
  | a :: as, bs => by
    cases bs <;> simp [sameItems, normalItems, Element.same_iff a, sameItems_iff as]
theorem sameFields_iff : (as bs : List (Token × Element)) →
    (sameFields as bs = true ↔ normalFields as = normalFields bs)
  | [], bs => by cases bs <;> simp [sameFields, normalFields]
  | (name, a) :: as, [] => by simp [sameFields, normalFields]
  | (name, a) :: as, (_, b) :: bs => by
    simp [sameFields, normalFields, Token.same_iff, Element.same_iff a b, sameFields_iff as bs,
      and_assoc]
end

mutual
theorem Element.normal_withTables : (e : Element) → (choose : List Nat → Table → Table) →
    (e.withTables choose).normal = e.normal
  | ⟨as, v, t⟩, choose => by simp [Element.withTables, Element.normal, v.normal_withTables choose]
theorem Value.normal_withTables : (v : Value) → (choose : List Nat → Table → Table) →
    (v.withTables choose).normal = v.normal
  | .null _, _ => rfl
  | .scalar _, _ => rfl
  | .struct fields, choose => congrArg Value.struct (normalFields_withTables 0 fields choose)
  | .list items, choose => congrArg Value.list (normalItems_withTables 0 items choose)
  | .sexp items, choose => congrArg Value.sexp (normalItems_withTables 0 items choose)
theorem normalItems_withTables (i : Nat) : (items : List Element) →
    (choose : List Nat → Table → Table) →
    normalItems (itemsWithTables i items choose) = normalItems items
  | [], _ => rfl
  | e :: rest, choose => by
    simp [itemsWithTables, normalItems, e.normal_withTables, normalItems_withTables (i + 1) rest]
theorem normalFields_withTables (i : Nat) : (fields : List (Token × Element)) →
    (choose : List Nat → Table → Table) →
    normalFields (fieldsWithTables i fields choose) = normalFields fields
  | [], _ => rfl
  | (name, e) :: rest, choose => by
    simp [fieldsWithTables, normalFields, e.normal_withTables, normalFields_withTables (i + 1) rest]
end

theorem normalItems_eq (items : List Element) : normalItems items = items.map Element.normal := by
  induction items with
  | nil => rfl
  | cons e rest ih => exact congrArg (e.normal :: ·) ih

theorem normalFields_eq (fields : List (Token × Element)) :
    normalFields fields = fields.map fun f => (f.1.normal, f.2.normal) := by
  induction fields with
  | nil => rfl
  | cons f rest ih => exact congrArg ((f.1.normal, f.2.normal) :: ·) ih

theorem Element.get?_normal (e : Element) (i : Nat) :
    e.normal.children?.bind (·.get? i) = (e.children?.bind (·.get? i)).map normal := by
  rcases e with ⟨as, v, t⟩
  cases v with
  | null k => rfl
  | scalar s => rfl
  | struct fields => simp [normal, Value.normal, children?, Value.children?, Children.get?,
      normalFields_eq, Function.comp_def]
  | list items => simp [normal, Value.normal, children?, Value.children?, Children.get?,
      normalItems_eq]
  | sexp items => simp [normal, Value.normal, children?, Value.children?, Children.get?,
      normalItems_eq]

theorem Element.at?_normal (e : Element) (path : List Nat) :
    e.normal.at? path = (e.at? path).map normal := by
  induction path generalizing e with
  | nil => rfl
  | cons i path ih =>
    rw [at?, at?, get?_normal]
    cases e.children?.bind (·.get? i) with
    | none => rfl
    | some a => exact ih a

theorem Element.shape_normal (e : Element) : e.normal.shape = e.shape := by
  rcases e with ⟨as, v, t⟩
  cases v with
  | scalar s => simp [normal, Value.normal, shape, kind, Value.kind, isNull, Value.isNull,
      Scalar.kind_normal]
  | _ => rfl

/-- The same elements have nodes of the same shape, at every path. -/
theorem Element.shape_at?_of_same {a b : Element} (h : a.same b = true) (path : List Nat) :
    (a.at? path).map shape = (b.at? path).map shape := by
  have hshape : ∀ e : Element, (e.at? path).map shape = (e.normal.at? path).map shape := by
    intro e
    rw [at?_normal, Option.map_map]
    congr 1
    funext x
    exact x.shape_normal.symm
  rw [hshape a, hshape b, (Element.same_iff a b).mp h]

/-- Being the same is having the same normal form, so it is an equivalence relation for elements,
for values, for the fields of structs and for tokens. Symbol tables do not count, wherever they are,
and at no depth does it confuse a null with a container or one kind with another. -/
theorem same_iff_normal_eq :
    (∀ a b : Element, a.same b = true ↔ a.normal = b.normal) ∧
      Equivalence (fun a b : Element => a.same b = true) ∧
      Equivalence (fun v w : Value => v.same w = true) ∧
      Equivalence (fun as bs : List (Token × Element) => sameFields as bs = true) ∧
      Equivalence (fun a b : Token => a.same b = true) ∧
      (∀ (a b : Element) (f g : List Nat → Table → Table),
        (a.withTables f).same (b.withTables g) = a.same b) ∧
      ∀ a b : Element, a.same b = true →
        ∀ path, (a.at? path).map Element.shape = (b.at? path).map Element.shape := by
  refine ⟨Element.same_iff, ?_, ?_, ?_, ?_, ?_, ?_⟩
  · simp only [Element.same_iff]
    exact eq_equivalence.comap Element.normal
  · simp only [Value.same_iff]
    exact eq_equivalence.comap Value.normal
  · simp only [sameFields_iff]
    exact eq_equivalence.comap normalFields
  · simp only [Token.same_iff]
    exact eq_equivalence.comap Token.normal
  · intro a b f g
    rw [Bool.eq_iff_iff, Element.same_iff, Element.same_iff, a.normal_withTables,
      b.normal_withTables]
  · intro a b h
    exact Element.shape_at?_of_same h

/-- The symbol in a list may have an id, and the list another table. -/
theorem same_symbol_in_lists :
    let a := Element.ofValue (.list [.ofScalar .symbol ⟨some "x", some 10⟩])
    let b := Element.mk [] (.list [.ofScalar .symbol ⟨some "x", none⟩]) (.ofLocals [some "x"])
    a.same b = true ∧ a.normal = b.normal ∧
      (a.at? [0]).map Element.shape = (b.at? [0]).map Element.shape := by
  intro a b
  have hsame : a.same b = true := by simp [a, b, Element.ofValue, Element.ofScalar, Element.same,
    Value.same, sameItems, Scalar.same, Token.same, Token.sameAll]
  obtain ⟨hnormal, -, -, -, -, -, hshape⟩ := same_iff_normal_eq
  exact ⟨hsame, (hnormal a b).mp hsame, hshape a b hsame [0]⟩

end IonDocument
