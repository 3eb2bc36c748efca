import IonDocument.Proofs.Element.Height
import IonDocument.Proofs.Walk.Stack
import Mathlib.Data.List.Chain

/-! # How the levels of a walk nest

Every level but the top one is on a container, and the level above it is over the children of that
container. This holds at the start, and no call can break it, so it holds after every sequence of
calls. The depth of a walk is then bounded by how deep containers nest in the document, and a level
is over fields only inside a struct.
-/
namespace IonDocument

theorem Children.lt_size_of_get? {children : Children} {i : Nat} {e : Element}
    (h : children.get? i = some e) : i < children.size := by
  rw [← getElem?_elements] at h
  exact children.length_elements ▸ (List.getElem?_eq_some_iff.mp h).1

namespace Level

/-- A level that is on a child is on one that exists. -/
def InRange (f : Level) : Prop := ∀ i, f.place = .on i → i < f.children.size

/-- The outer level is on a container that is not null, and the inner one is over its children. -/
def Within (inner outer : Level) : Prop :=
  ∃ i e, outer.place = .on i ∧ i < outer.children.size ∧ outer.children.get? i = some e ∧
    e.isNull = false ∧ e.children? = some inner.children

theorem current?_eq_some {f : Level} {e : Element} (h : f.current? = some e) :
    ∃ i, f.place = .on i ∧ f.children.get? i = some e := by
  unfold current? at h
  split at h
  · exact ⟨_, ‹_›, h⟩
  · cases h

@[simp] theorem children_moveTo (f : Level) (i : Nat) : (f.moveTo i).children = f.children := by
  unfold moveTo
  split <;> rfl

@[simp] theorem children_advance (f : Level) : f.advance.children = f.children := by
  unfold advance
  split
  · exact f.children_moveTo 0
  · exact f.children_moveTo _
  · rfl

theorem inRange_moveTo (f : Level) (i : Nat) : (f.moveTo i).InRange := by
  intro j hj
  rw [children_moveTo]
  unfold moveTo at hj
  split at hj
  · cases hj
    exact Children.lt_size_of_get? ‹_›
  · cases hj

theorem inRange_advance (f : Level) : f.advance.InRange := by
  unfold advance
  cases hp : f.place with
  | before => exact f.inRange_moveTo 0
  | on i => exact f.inRange_moveTo (i + 1)
  | after =>
    intro i hi
    cases hp.symm.trans hi

theorem Within.inRange {inner outer : Level} (h : inner.Within outer) : outer.InRange := by
  obtain ⟨i, e, hplace, hlt, -⟩ := h
  intro j hj
  rw [hplace] at hj
  cases hj
  exact hlt

theorem Within.of_children {inner inner' outer : Level} (h : inner.Within outer)
    (hc : inner'.children = inner.children) : inner'.Within outer := by
  rw [Within, hc]
  exact h

theorem Within.current? {inner outer : Level} (h : inner.Within outer) :
    ∃ e, outer.current? = some e ∧ e.children? = some inner.children := by
  obtain ⟨i, e, hplace, -, hget, -, hchildren⟩ := h
  exact ⟨e, by rw [Level.current?, hplace]; exact hget, hchildren⟩

/-- A container is higher than what is in it. -/
theorem Within.height {inner outer : Level} (h : inner.Within outer) :
    itemsHeight inner.children.elements + 1 ≤ itemsHeight outer.children.elements := by
  obtain ⟨i, e, -, -, hget, -, hchildren⟩ := h
  rw [← Children.getElem?_elements] at hget
  rw [← Element.height_of_children hchildren]
  exact itemsHeight_le_iff.mp (Nat.le_refl _) e (List.mem_of_getElem? hget)

end Level

theorem Element.isNull_of_children {e : Element} {children : Children}
    (h : e.children? = some children) : e.isNull = false := by
  rcases e with ⟨as, v, t⟩
  cases v <;> first | rfl | cases h

theorem Element.value_of_fields {e : Element} {fields : Fields}
    (h : e.children? = some (.fields fields)) : e.value = .struct fields := by
  rcases e with ⟨as, v, t⟩
  cases v <;> cases h
  rfl

namespace Walk

/-- What the moves do to a walk that answers them. -/
inductive Moves (w : Walk) : Call → Walk → Prop
  | advance : Moves w .advance (w.withTop w.top.advance)
  | stepIn {e : Element} {children : Children} (h : w.current? = some e)
    (hchildren : e.children? = some children) : Moves w .stepIn (w.inside (.enter children))
  | stepOut {level : Level} {outer : List Level} (h : w.outer = level :: outer) :
    Moves w .stepOut ⟨level, outer, w.table⟩

theorem perform_of_not_isMove {q : Call} (hq : q.isMove = false) (w : Walk) :
    (cursor.perform q w).2 = w := by
  cases q with
  | annotations => rfl
  | fieldName => rfl
  | advance => cases hq
  | stepIn => cases hq
  | stepOut => cases hq
  | read k =>
    change (w.read k).2 = w
    unfold read
    split
    · rfl
    · split <;> rfl

/-- A call that is not an answered move leaves a walk where it is. -/
theorem perform_moves (q : Call) (w : Walk) :
    (q.isMove = true ∧ (cursor.perform q w).1.isOk = true ∧ w.Moves q (cursor.perform q w).2) ∨
      (¬ (q.isMove = true ∧ (cursor.perform q w).1.isOk = true) ∧
        (cursor.perform q w).2 = w) := by
  cases hq : q.isMove with
  | false => exact .inr ⟨by simp, perform_of_not_isMove hq w⟩
  | true =>
    cases q with
    | annotations => cases hq
    | fieldName => cases hq
    | read k => cases hq
    | advance => exact .inl ⟨rfl, rfl, .advance⟩
    | stepIn =>
      change (_ ∧ w.stepIn.1.isOk = true ∧ w.Moves .stepIn w.stepIn.2) ∨
        (¬ (_ ∧ w.stepIn.1.isOk = true) ∧ w.stepIn.2 = w)
      cases h : w.current? with
      | none => simp [stepIn, h, Except.isOk, Except.toBool]
      | some e =>
        cases hchildren : e.children? with
        | none => simp [stepIn, h, hchildren, Except.isOk, Except.toBool]
        | some children =>
          rw [stepIn_of_children h hchildren]
          exact .inl ⟨rfl, rfl, .stepIn h hchildren⟩
    | stepOut =>
      rcases w with ⟨top, outer, table⟩
      cases outer with
      | nil =>
        refine .inr ⟨?_, rfl⟩
        rintro ⟨-, h⟩
        cases h
      | cons level outer => exact .inl ⟨rfl, rfl, .stepOut rfl⟩

/-- A call is a move, or all goes on as if it had not been made. -/
theorem call_moves (q : Call) (calls : List Call) (w : Walk) :
    (∃ w', (cursor.perform q w).2 = w' ∧ w.Moves q w' ∧
      cursor.moves (q :: calls) w = q :: cursor.moves calls w') ∨
    (q ≠ .advance ∧ (cursor.perform q w).2 = w ∧
      cursor.moves (q :: calls) w = cursor.moves calls w) := by
  rw [Cursor.moves]
  rcases w.perform_moves q with ⟨hmove, hok, hmoves⟩ | ⟨hstay, hw⟩
  · exact .inl ⟨_, rfl, hmoves, by rw [if_pos ⟨hmove, hok⟩]; rfl⟩
  · refine .inr ⟨?_, hw, by rw [if_neg hstay, hw]; rfl⟩
    rintro rfl
    exact hstay ⟨rfl, rfl⟩

theorem Moves.depth {w w' : Walk} {q : Call} (h : w.Moves q w') :
    w'.outer.length + [q].count .stepOut = w.outer.length + [q].count .stepIn := by
  cases h with
  | advance => rfl
  | stepIn h hchildren => rfl
  | stepOut h =>
    rw [h]
    rfl

/-- All steps in that were not stepped out of are in the depth. -/
theorem depth_after (calls : List Call) (w : Walk) :
    (cursor.after calls w).outer.length + (cursor.moves calls w).count .stepOut =
      w.outer.length + (cursor.moves calls w).count .stepIn := by
  induction calls generalizing w with
  | nil => rfl
  | cons q calls ih =>
    rw [Cursor.after]
    rcases w.call_moves q calls with ⟨w', hw', hmoves, hcons⟩ | ⟨-, hw, hcons⟩
    · have hdepth := hmoves.depth
      have hih := ih w'
      rw [hw', hcons, ← List.singleton_append, List.count_append, List.count_append]
      omega
    · rw [hw, hcons]
      exact ih w

/-- The last level is over the document, each other one is over the children of the container that
the next one is on, and the top one is on no child that does not exist. -/
structure Nested (document : List Element) (w : Walk) : Prop where
  root : w.levels.getLast?.map Level.children = some (.items document)
  within : w.levels.IsChain Level.Within
  inRange : w.top.InRange

variable {document : List Element} {w w' : Walk}

theorem nested_start (document : List Element) (table : Table) :
    (start document table).Nested document where
  root := rfl
  within := .singleton _
  inRange := nofun

theorem Nested.within_outer {top level : Level} {outer : List Level} {table : Table}
    (h : Nested document ⟨top, level :: outer, table⟩) : top.Within level :=
  (List.isChain_cons_cons.mp h.within).1

theorem Nested.moves {q : Call} (h : w.Nested document) (hm : w.Moves q w') :
    w'.Nested document := by
  rcases w with ⟨top, outer, table⟩
  cases hm with
  | advance =>
    refine ⟨?_, ?_, top.inRange_advance⟩
    · cases outer with
      | nil => exact (congrArg some top.children_advance).trans h.root
      | cons level outer => exact h.root
    · obtain ⟨htop, houter⟩ := List.isChain_cons.mp h.within
      exact houter.cons fun level hlevel => (htop level hlevel).of_children top.children_advance
  | @stepIn e children hcurrent hchildren =>
    refine ⟨h.root, .cons_cons ?_ h.within, nofun⟩
    obtain ⟨i, hplace, hget⟩ := Level.current?_eq_some hcurrent
    exact ⟨i, e, hplace, Children.lt_size_of_get? hget, hget, Element.isNull_of_children hchildren,
      hchildren⟩
  | stepOut hlevel =>
    cases hlevel
    exact ⟨h.root, h.within.tail, h.within_outer.inRange⟩

theorem nested_after (h : w.Nested document) (calls : List Call) :
    (cursor.after calls w).Nested document := by
  induction calls generalizing w with
  | nil => exact h
  | cons q calls ih =>
    rw [Cursor.after]
    rcases w.call_moves q calls with ⟨w', hw', hmoves, -⟩ | ⟨-, hw, -⟩
    · rw [hw']
      exact ih (h.moves hmoves)
    · rw [hw]
      exact ih h

theorem height_of_levels {level : Level} {outer : List Level}
    (hroot : (level :: outer).getLast?.map Level.children = some (.items document))
    (hwithin : (level :: outer).IsChain Level.Within) :
    itemsHeight level.children.elements + outer.length ≤ itemsHeight document := by
  induction outer generalizing level with
  | nil =>
    obtain hchildren : level.children = .items document := Option.some.inj hroot
    rw [hchildren]
    exact Nat.le_refl _
  | cons next outer ih =>
    obtain ⟨hlevel, hrest⟩ := List.isChain_cons_cons.mp hwithin
    have hnext := ih hroot hrest
    have hheight := hlevel.height
    rw [List.length_cons]
    omega

/-- A walk is nowhere deeper than the document. -/
theorem Nested.depth_le (h : w.Nested document) : w.outer.length ≤ itemsHeight document := by
  have hheight := height_of_levels h.root h.within
  omega

/-- The container that the current value is in; there is none at the top of the document. -/
def parent? (w : Walk) : Option Element := w.outer.head?.bind Level.current?

/-- A level is over fields exactly inside the struct that has them. -/
theorem Nested.parent_struct_iff (h : w.Nested document) {fields : Fields} :
    (∃ e, w.parent? = some e ∧ e.value = .struct fields) ↔ w.top.children = .fields fields := by
  rcases w with ⟨top, outer, table⟩
  cases outer with
  | nil =>
    have hchildren : top.children = .items document := Option.some.inj h.root
    simp [parent?, hchildren]
  | cons level outer =>
    obtain ⟨e, hcurrent, hchildren⟩ := h.within_outer.current?
    have hparent : parent? ⟨top, level :: outer, table⟩ = some e := hcurrent
    rw [hparent]
    constructor
    · rintro ⟨e', he, hvalue⟩
      cases he
      rw [Element.children?, hvalue] at hchildren
      exact (Option.some.inj hchildren).symm
    · intro hfields
      rw [hfields] at hchildren
      exact ⟨e, rfl, Element.value_of_fields hchildren⟩

theorem fieldName_eq_ok_iff {name : Token} : w.fieldName = .ok name ↔
    ∃ fields e i, w.top.children = .fields fields ∧ w.top.place = .on i ∧
      fields[i]? = some (name, e) := by
  unfold fieldName
  constructor
  · intro h
    split at h
    · cases h
    · split at h
      · cases h
        exact ⟨_, _, _, ‹_›, ‹_›, ‹_›⟩
      · cases h
    · cases h
  · rintro ⟨fields, e, i, hchildren, hplace, hget⟩
    simp [hchildren, hplace, hget]

/-- The current value has a field name exactly if it is in a struct. -/
theorem Nested.fieldName_iff (h : w.Nested document) : (∃ name, w.fieldName = .ok name) ↔
    (∃ e, w.current? = some e) ∧ ∃ e fields, w.parent? = some e ∧ e.value = .struct fields := by
  constructor
  · rintro ⟨name, hname⟩
    obtain ⟨fields, e, i, hchildren, hplace, hget⟩ := fieldName_eq_ok_iff.mp hname
    obtain ⟨parent, hparent⟩ := h.parent_struct_iff.mpr hchildren
    refine ⟨⟨e, ?_⟩, parent, fields, hparent⟩
    simp [current?, Level.current?, hplace, hchildren, Children.get?, hget]
  · rintro ⟨⟨e, hcurrent⟩, parent, fields, hparent⟩
    have hchildren := h.parent_struct_iff.mp ⟨parent, hparent⟩
    obtain ⟨i, hplace, hget⟩ := Level.current?_eq_some hcurrent
    rw [hchildren, Children.get?, Option.map_eq_some_iff] at hget
    obtain ⟨⟨name, a⟩, hget, -⟩ := hget
    exact ⟨name, fieldName_eq_ok_iff.mpr ⟨fields, a, i, hchildren, hplace, hget⟩⟩

/-- After any calls the levels nest, and the depth, the kinds and the field names are as the levels
say; and the same calls on a stack of levels come to no breach. -/
theorem nested_after_calls (document : List Element) (table : Table) (calls : List Call) :
    let w := cursor.after calls (start document table)
    let moves := cursor.moves calls (start document table)
    w.Nested document ∧
      w.view.depth + moves.count .stepOut = moves.count .stepIn ∧
      w.view.depth ≤ itemsHeight document ∧
      w.advance.1 = .ok w.advance.2.view.kind? ∧
      ((∃ name, w.fieldName = .ok name) ↔
        (∃ e, w.current? = some e) ∧ ∃ e fields, w.parent? = some e ∧ e.value = .struct fields) ∧
      (Stack.start document table).performAll calls =
        .ok (cursor.answers calls (start document table), .ofWalk w) ∧
      (Stack.ofWalk w).view = .ok w.view := by
  intro w moves
  have hnested : w.Nested document := nested_after (nested_start document table) calls
  have hdepth := depth_after calls (start document table)
  refine ⟨hnested, ?_, hnested.depth_le, rfl, hnested.fieldName_iff, ?_, Stack.view_ofWalk w⟩
  · exact hdepth.trans (Nat.zero_add _)
  · exact Stack.performAll_ofWalk calls (start document table)

end Walk
end IonDocument
