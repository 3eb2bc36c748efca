import IonDocument.Proofs.Walk.Forward
import Mathlib.Data.List.Infix

/-! # Visits to a container

Calls touch the top level of a walk only. So as long as a walk stays below the container that it
stepped into, all levels that it had before are still there, and whatever was read, skipped or
refused down there, the step out that comes back to the depth of the container also comes back to
the very same walk.
-/
namespace IonDocument

theorem Level.current?_moveTo (f : Level) (i : Nat) : (f.moveTo i).current? = f.children.get? i := by
  cases h : f.children.get? i <;> simp [moveTo, current?, h]

namespace Walk
variable {document : List Element} {w w' : Walk}

/-- Inside the container that `w` is on, at any depth. -/
structure Below (w w' : Walk) : Prop where
  levels : w.levels <:+ w'.outer
  table : w'.table = w.table

theorem below_inside (w : Walk) (level : Level) : w.Below (w.inside level) where
  levels := List.suffix_refl _
  table := rfl

theorem Below.depth_lt (h : w.Below w') : w.view.depth < w'.view.depth := h.levels.length_le

/-- Right inside the container the levels below the top one are those of `w`. -/
theorem Below.outer_eq_iff (h : w.Below w') :
    w'.outer = w.levels ↔ w'.view.depth = w.view.depth + 1 :=
  ⟨congrArg List.length, fun hdepth => (h.levels.eq_of_length hdepth.symm).symm⟩

theorem Below.stepOut (h : w.Below w') (houter : w'.outer = w.levels) :
    w'.stepOut = (.ok (), w) := by
  simp only [Walk.stepOut, houter, Walk.levels, h.table]

/-- A call leaves the walk below the container, or it is a step out from right inside it. -/
theorem Below.perform (h : w.Below w') (q : Call) :
    w.Below (cursor.perform q w').2 ∨ (q = .stepOut ∧ w'.outer = w.levels) := by
  rcases w'.perform_moves q with ⟨-, -, hmoves⟩ | ⟨-, hstay⟩
  · generalize (cursor.perform q w').2 = w'' at hmoves ⊢
    cases hmoves with
    | advance => exact .inl ⟨h.levels, h.table⟩
    | stepIn _ _ => exact .inl ⟨h.levels.trans (List.suffix_cons _ _), h.table⟩
    | @stepOut level outer houter =>
      have hlevels := h.levels
      rw [houter, List.suffix_cons_iff] at hlevels
      rcases hlevels with heq | hsuffix
      · exact .inr ⟨rfl, houter.trans heq.symm⟩
      · exact .inl ⟨hsuffix, h.table⟩
  · rw [hstay]
    exact .inl h

/-- If no call on the way came back to the depth of `w`, the walk is still below. -/
theorem Below.after (h : w.Below w') {visit : List Call}
    (hdeep : ∀ before, before <+: visit → w.view.depth < (cursor.after before w').view.depth) :
    w.Below (cursor.after visit w') := by
  induction visit generalizing w' with
  | nil => exact h
  | cons q visit ih =>
    have hq := hdeep [q] (List.prefix_append [q] visit)
    rw [Cursor.after]
    rcases h.perform q with hbelow | ⟨rfl, houter⟩
    · refine ih hbelow ?_
      intro before hbefore
      exact hdeep (q :: before) (List.cons_prefix_cons.mpr ⟨rfl, hbefore⟩)
    · change w.view.depth < w'.stepOut.2.view.depth at hq
      rw [h.stepOut houter] at hq
      exact (Nat.lt_irrefl _ hq).elim

/-- The children around the one that a walk is on, by their paths. -/
theorem Nested.at?_sibling (h : w.Nested document) (j : Nat) :
    (Children.items document).at? (pathTo w.outer ++ [j]) = w.top.children.get? j := by
  rcases w with ⟨top, _ | ⟨level, outer⟩, table⟩
  · have hchildren : top.children = .items document := Option.some.inj h.root
    simp [pathTo, Children.at?, hchildren]
  · obtain ⟨container, hcurrent, hchildren⟩ := h.within_outer.current?
    have hat : (Children.items document).at? (pathTo (level :: outer)) = some container :=
      at?_pathTo h.root (List.isChain_cons_cons.mp h.within).2 hcurrent
    rw [Children.at?_append hat]
    simp [Element.at?, hchildren]

/-- The next advance lands on the following sibling, or finds the end if there is none. -/
theorem Nested.advance_of_current (h : w.Nested document) {e : Element} (he : w.current? = some e) :
    ∃ i, w.path = pathTo w.outer ++ [i] ∧
      w.advance.2.current? = (Children.items document).at? (pathTo w.outer ++ [i + 1]) := by
  obtain ⟨i, hplace, -⟩ := Level.current?_eq_some he
  refine ⟨i, ?_, ?_⟩
  · simp [path, levels, pathTo, Level.index?, hplace]
  · rw [h.at?_sibling, ← Level.current?_moveTo]
    simp [advance, current?, Level.advance, hplace]

/-- During a visit to a container the levels of the walk stay as they were, below the new ones. Only
a step out from right inside the container comes back, and it comes back to the same walk; so the
next advance is to the sibling that follows the container. -/
theorem visit_is_invisible (document : List Element) (table : Table) (calls visit : List Call)
    (q : Call) :
    let w := cursor.after calls (start document table)
    let inner := cursor.after (.stepIn :: visit) w
    let back := cursor.after (.stepIn :: visit ++ [q]) w
    ∀ e children, w.current? = some e → e.children? = some children →
      (∀ before, before <+: visit →
        w.view.depth < (cursor.after (.stepIn :: before) w).view.depth) →
      w.levels <:+ inner.outer ∧
        (back.view.depth ≤ w.view.depth ↔ q = .stepOut ∧ inner.view.depth = w.view.depth + 1) ∧
        (back.view.depth ≤ w.view.depth → back = w ∧ ∃ i, w.path = pathTo w.outer ++ [i] ∧
          back.advance.1 = .ok (back.advance.2.current?.map Element.kind) ∧
          back.advance.2.current? = (Children.items document).at? (pathTo w.outer ++ [i + 1])) := by
  intro w inner back e children he hchildren hdeep
  have hnested : w.Nested document := nested_after (nested_start document table) calls
  have hin : (cursor.perform .stepIn w).2 = w.inside (.enter children) :=
    congrArg Prod.snd (stepIn_of_children he hchildren)
  have hbelow : w.Below inner := by
    change w.Below (cursor.after visit (cursor.perform .stepIn w).2)
    simp only [Cursor.after, hin] at hdeep ⊢
    exact (w.below_inside _).after hdeep
  have hback : back = (cursor.perform q inner).2 := cursor.after_append (.stepIn :: visit) [q] w
  have hsame (hq : q = .stepOut) (houter : inner.outer = w.levels) : back = w := by
    subst hq
    exact hback.trans (congrArg Prod.snd (hbelow.stepOut houter))
  have hreturn (hdepth : back.view.depth ≤ w.view.depth) :
      q = .stepOut ∧ inner.outer = w.levels := by
    rcases hbelow.perform q with hstill | hout
    · rw [← hback] at hstill
      exact (Nat.not_lt.mpr hdepth hstill.depth_lt).elim
    · exact hout
  refine ⟨hbelow.levels, ⟨?_, ?_⟩, ?_⟩
  · intro hdepth
    obtain ⟨hq, houter⟩ := hreturn hdepth
    exact ⟨hq, hbelow.outer_eq_iff.mp houter⟩
  · rintro ⟨hq, hdepth⟩
    rw [hsame hq (hbelow.outer_eq_iff.mpr hdepth)]
  · intro hdepth
    obtain ⟨hq, houter⟩ := hreturn hdepth
    rw [hsame hq houter]
    obtain ⟨i, hpath, hnext⟩ := hnested.advance_of_current he
    exact ⟨rfl, i, hpath, rfl, hnext⟩

/-- A visit that skips the rest of an inner list, goes past the end and is refused twice. -/
theorem visit_with_inner_list :
    let list := Element.ofValue (.list [.ofValue (.list [.ofScalar .int 1, .ofScalar .int 2])])
    let document := [list, .ofScalar .string "a"]
    let w := cursor.after [.advance] (start document .system)
    let visit : List Call := [.read .int, .advance, .stepIn, .advance, .read .int, .stepIn, .stepOut,
      .advance, .advance]
    w.current? = some list ∧
      (∀ before, before <+: visit →
        w.view.depth < (cursor.after (.stepIn :: before) w).view.depth) ∧
      (cursor.after (.stepIn :: visit ++ [.stepOut]) w).view.depth ≤ w.view.depth ∧
      cursor.after (.stepIn :: visit ++ [.stepOut]) w = w := by
  intro list document w visit
  have hdeep : ∀ before ∈ visit.inits,
      w.view.depth < (cursor.after (.stepIn :: before) w).view.depth := by decide
  have hdepth : (cursor.after (.stepIn :: visit ++ [.stepOut]) w).view.depth ≤ w.view.depth := by
    decide
  have hdeep' := fun before hbefore => hdeep before ((List.mem_inits _ _).mpr hbefore)
  have hvisit := visit_is_invisible document .system [.advance] visit .stepOut list _ rfl rfl hdeep'
  exact ⟨rfl, hdeep', hdepth, (hvisit.2.2 hdepth).1⟩

end Walk
end IonDocument
