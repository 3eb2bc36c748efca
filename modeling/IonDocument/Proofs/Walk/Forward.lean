import IonDocument.Proofs.Element.Node
import IonDocument.Proofs.Walk.Nesting
import Mathlib.Data.List.Sort

/-! # Where a walk lands

The nodes on which a walk lands come in document order, as long as it does not step into a
container that it has just stepped out of. Stepping out leaves the walk on the container, so that
stepping in again goes back to before its first child, and what comes after lands once more on nodes
that were passed already.
-/
namespace IonDocument

/-- The index of the child that the level is on. -/
def Level.index? (f : Level) : Option Nat :=
  match f.place with
  | .on i => some i
  | _ => none

theorem Level.InRange.nextIndex_le {f : Level} (h : f.InRange) : f.nextIndex ≤ f.children.size := by
  unfold Level.nextIndex
  cases hp : f.place with
  | before => exact Nat.zero_le _
  | on i => exact h i hp
  | after => exact Nat.le_refl _

/-- The path to where the first one of these levels stands. -/
def pathTo : List Level → List Nat
  | [] => []
  | level :: outer => pathTo outer ++ level.index?.toList

namespace Walk

def path (w : Walk) : List Nat := pathTo w.levels

/-- The path of the next child. -/
def nextPath (w : Walk) : List Nat := pathTo w.outer ++ [w.top.nextIndex]

/-- The paths of the nodes on which the advances land, in the order in which they do. -/
def landings : List Call → Walk → List (List Nat)
  | [], _ => []
  | q :: calls, w =>
    let w' := (cursor.perform q w).2
    (if q = .advance ∧ w'.current?.isSome then [w'.path] else []) ++ landings calls w'

/-- No container is stepped into right after it was stepped out of. -/
def NoReturn (moves : List Call) : Prop := moves.IsChain fun a b => a = .stepOut → b ≠ .stepIn

variable {document : List Element} {w w' : Walk} {p : List Nat} {last q : Call}

/-- After the move `last`, with `p` the path of the last landing, all that is ahead comes after `p`.
The walk is still where it landed, unless it stepped out. -/
structure Landed (p : List Nat) (last : Call) (w : Walk) : Prop where
  ahead : p < w.nextPath
  here : last ≠ .stepOut → w.current?.isSome → w.path = p

theorem landed_start (document : List Element) (table : Table) :
    Landed [] .advance (start document table) where
  ahead := List.nil_lt_cons _ _
  here := nofun

theorem path_pass_one (w : Walk) : (w.withTop (w.top.pass 1)).path = w.nextPath := rfl

/-- An advance that lands does so on the next child, and the one after it is then ahead. -/
theorem Landed.pass (h : Landed p last w) :
    p < w.nextPath ∧ Landed w.nextPath .advance (w.withTop (w.top.pass 1)) := by
  refine ⟨h.ahead, ?_, fun _ _ => path_pass_one w⟩
  have hnext : (w.withTop (w.top.pass 1)).nextPath = pathTo w.outer ++ [w.top.nextIndex + 1] :=
    congrArg (pathTo w.outer ++ [·]) (Level.nextIndex_pass w.top 1)
  rw [hnext]
  exact List.append_left_lt (List.cons_lt_cons_iff.mpr (.inl (Nat.lt_succ_self _)))

theorem Landed.finish (h : Landed p last w) (hrange : w.top.InRange) (hend : w.top.remaining = []) :
    Landed p .advance (w.withTop w.top.finish) := by
  refine ⟨?_, nofun⟩
  have hle : w.top.children.size ≤ w.top.nextIndex := by
    rw [Level.remaining_eq_drop, List.drop_eq_nil_iff, Children.length_elements] at hend
    exact hend
  have hnext : (w.withTop w.top.finish).nextPath = pathTo w.outer ++ [w.top.children.size] := rfl
  rw [hnext, Nat.le_antisymm hle hrange.nextIndex_le]
  exact h.ahead

theorem Landed.inside (h : Landed p last w) (hlast : last ≠ .stepOut) {e : Element}
    (hcurrent : w.current? = some e) (children : Children) :
    Landed p .stepIn (w.inside (.enter children)) := by
  refine ⟨?_, fun _ => nofun⟩
  have hpath := h.here hlast (by rw [hcurrent]; rfl)
  have hnext : (w.inside (.enter children)).nextPath = w.path ++ [0] := rfl
  rw [hnext, hpath]
  calc p = p ++ [] := (List.append_nil p).symm
    _ < p ++ [0] := List.append_left_lt (List.nil_lt_cons 0 [])

theorem Landed.outside {top level : Level} {outer : List Level} {table : Table}
    (h : Landed p last ⟨top, level :: outer, table⟩) (hwithin : top.Within level) :
    Landed p .stepOut ⟨level, outer, table⟩ := by
  refine ⟨?_, fun hne => (hne rfl).elim⟩
  obtain ⟨i, e, hplace, -⟩ := hwithin
  have hfrom : nextPath ⟨top, level :: outer, table⟩ = pathTo outer ++ [i, top.nextIndex] := by
    simp [nextPath, pathTo, Level.index?, hplace]
  have hto : nextPath ⟨level, outer, table⟩ = pathTo outer ++ [i + 1] := by
    simp [nextPath, Level.nextIndex, hplace]
  have hahead := h.ahead
  rw [hfrom] at hahead
  rw [hto]
  calc p < pathTo outer ++ [i, top.nextIndex] := hahead
    _ < pathTo outer ++ [i + 1] :=
      List.append_left_lt (List.cons_lt_cons_iff.mpr (.inl (Nat.lt_succ_self i)))

theorem landings_of_stay {calls : List Call} (hq : q ≠ .advance) (hw : (cursor.perform q w).2 = w) :
    landings (q :: calls) w = landings calls w := by
  rw [landings, if_neg fun h => hq h.1, hw]
  rfl

/-- The landings go on from the last one, if no container is stepped into again. -/
theorem isChain_landings (calls : List Call) (h : w.Nested document) (hp : Landed p last w)
    (hmoves : NoReturn (last :: cursor.moves calls w)) :
    (p :: landings calls w).IsChain (· < ·) := by
  induction calls generalizing w p last with
  | nil => exact .singleton p
  | cons q calls ih =>
    rcases w.call_moves q calls with ⟨w', hw', hm, hcons⟩ | ⟨hq, hw, hcons⟩
    · rw [hcons] at hmoves
      obtain ⟨hlast, hmoves⟩ := List.isChain_cons_cons.mp hmoves
      have hnested := h.moves hm
      rw [landings, hw']
      cases hm with
      | advance =>
        cases hremaining : w.top.remaining with
        | nil =>
          rw [Level.advance_eq_finish hremaining] at hnested hmoves ⊢
          exact ih hnested (hp.finish h.inRange hremaining) hmoves
        | cons e rest =>
          rw [Level.advance_eq_pass hremaining] at hnested hmoves ⊢
          obtain ⟨hlt, hlanded⟩ := hp.pass
          have hcurrent : (w.withTop (w.top.pass 1)).current? = some e :=
            Level.current?_pass_one hremaining
          rw [if_pos ⟨rfl, by rw [hcurrent]; rfl⟩, path_pass_one]
          exact .cons_cons hlt (ih hnested hlanded hmoves)
      | stepIn hcurrent hchildren =>
        have hlast : last ≠ .stepOut := fun hl => hlast hl rfl
        exact ih hnested (hp.inside hlast hcurrent _) hmoves
      | stepOut hlevel =>
        rcases w with ⟨top, outer, table⟩
        cases hlevel
        exact ih hnested (hp.outside h.within_outer) hmoves
    · rw [hcons] at hmoves
      rw [landings_of_stay hq hw]
      exact ih h hp hmoves

theorem at?_pathTo {level : Level} {outer : List Level} {e : Element}
    (hroot : (level :: outer).getLast?.map Level.children = some (.items document))
    (hwithin : (level :: outer).IsChain Level.Within) (he : level.current? = some e) :
    (Children.items document).at? (pathTo (level :: outer)) = some e := by
  induction outer generalizing level e with
  | nil =>
    obtain ⟨i, hplace, hget⟩ := Level.current?_eq_some he
    have hchildren : level.children = .items document := Option.some.inj hroot
    rw [hchildren] at hget
    simp [pathTo, Level.index?, hplace, Children.at?, hget]
  | cons next outer ih =>
    obtain ⟨i, hplace, hget⟩ := Level.current?_eq_some he
    obtain ⟨hlevel, hrest⟩ := List.isChain_cons_cons.mp hwithin
    obtain ⟨container, hcurrent, hchildren⟩ := hlevel.current?
    have hcontainer := ih hroot hrest hcurrent
    rw [pathTo, Children.at?_append hcontainer]
    simp [Level.index?, hplace, Element.at?, hchildren, hget]

/-- The node at the path of a walk is the one that the walk is on. -/
theorem Nested.at?_path (h : w.Nested document) {e : Element} (he : w.current? = some e) :
    (Children.items document).at? w.path = some e :=
  at?_pathTo h.root h.within he

theorem landings_subset (calls : List Call) (h : w.Nested document) :
    landings calls w ⊆ (Children.items document).paths := by
  induction calls generalizing w with
  | nil => exact List.nil_subset _
  | cons q calls ih =>
    rcases w.call_moves q calls with ⟨w', hw', hm, -⟩ | ⟨hq, hw, -⟩
    · rw [landings, hw']
      refine List.append_subset.mpr ⟨?_, ih (h.moves hm)⟩
      split
      · rename_i hlands
        obtain ⟨e, he⟩ := Option.isSome_iff_exists.mp hlands.2
        rw [List.cons_subset, Children.mem_paths_iff, (h.moves hm).at?_path he]
        exact ⟨rfl, List.nil_subset _⟩
      · exact List.nil_subset _
    · rw [landings_of_stay hq hw]
      exact ih h

theorem increasing_landings (calls : List Call) (h : w.Nested document) (hp : Landed p last w)
    (hlast : last ≠ .stepOut) (hmoves : NoReturn (cursor.moves calls w)) :
    (landings calls w).Pairwise (· < ·) := by
  have hchain := isChain_landings calls h hp (hmoves.cons fun _ _ hl => (hlast hl).elim)
  exact (List.pairwise_cons.mp hchain.pairwise).2

/-- Stepping out and in again goes back to before the first child of the container. -/
theorem Nested.stepOut_stepIn (h : w.Nested document) (houter : w.outer ≠ []) :
    cursor.moves [.stepOut, .stepIn] w = [.stepOut, .stepIn] ∧
      cursor.after [.stepOut, .stepIn] w = w.withTop (.enter w.top.children) := by
  rcases w with ⟨top, _ | ⟨level, outer⟩, table⟩
  · exact (houter rfl).elim
  · obtain ⟨e, hcurrent, hchildren⟩ := h.within_outer.current?
    have hout : cursor.perform .stepOut ⟨top, level :: outer, table⟩ =
        (.ok (), ⟨level, outer, table⟩) := rfl
    have hin : cursor.perform .stepIn ⟨level, outer, table⟩ =
        (.ok (), ⟨.enter top.children, level :: outer, table⟩) :=
      stepIn_of_children hcurrent hchildren
    simp [Cursor.moves, Cursor.after, hout, hin, Call.isMove, Except.isOk, Except.toBool, withTop]

/-- The walk is at its path in the document. It lands on nodes in document order and on none twice,
if it never steps into a container right after stepping out of it; to do so leads back to the
beginning of the container. -/
theorem landings_in_order (document : List Element) (table : Table) (calls : List Call) :
    let w := cursor.after calls (start document table)
    let nodes := (Children.items document).paths
    (∀ e, w.current? = some e → (Children.items document).at? w.path = some e) ∧
      (w.outer ≠ [] → cursor.moves [.stepOut, .stepIn] w = [.stepOut, .stepIn] ∧
        cursor.after [.stepOut, .stepIn] w = w.withTop (.enter w.top.children)) ∧
      landings calls (start document table) ⊆ nodes ∧
      (NoReturn (cursor.moves calls (start document table)) →
        (landings calls (start document table)).Pairwise (· < ·) ∧
        (landings calls (start document table)).Sublist nodes) := by
  intro w nodes
  have hstart := nested_start document table
  have hnested : w.Nested document := nested_after hstart calls
  have hsubset : landings calls (start document table) ⊆ nodes := landings_subset calls hstart
  refine ⟨fun e he => hnested.at?_path he, hnested.stepOut_stepIn, hsubset, ?_⟩
  intro hmoves
  have hpairwise := increasing_landings calls hstart (landed_start document table) nofun hmoves
  refine ⟨hpairwise, ?_⟩
  exact List.sublist_of_subperm_of_pairwise (List.subperm_of_subset hpairwise.nodup hsubset) hpairwise
    (Children.pairwise_paths _)

/-- A walk over two lists, that steps into each of them. -/
theorem landings_in_two_lists :
    let document := [Element.ofValue (.list [.ofScalar .int 1, .ofScalar .int 2]),
      .ofValue (.list [.ofScalar .int 3])]
    let calls : List Call :=
      [.advance, .stepIn, .advance, .read .int, .stepIn, .stepOut, .advance, .stepIn, .advance]
    let w := start document .system
    NoReturn (cursor.moves calls w) ∧ landings calls w = [[0], [0, 0], [1], [1, 0]] ∧
      (landings calls w).Sublist (Children.items document).paths := by
  intro document calls w
  have hmoves : NoReturn (cursor.moves calls w) := by
    unfold NoReturn
    decide
  exact ⟨hmoves, by decide, ((landings_in_order document .system calls).2.2.2 hmoves).2⟩

/-- A walk that steps out of a list and in again lands on its first item a second time. -/
theorem landings_of_return :
    let document := [Element.ofValue (.list [.ofScalar .int 1])]
    let calls : List Call := [.advance, .stepIn, .advance, .stepOut, .stepIn, .advance]
    landings calls (start document .system) = [[0], [0, 0], [0, 0]] ∧
      ¬ (landings calls (start document .system)).Pairwise (· < ·) ∧
      ¬ (landings calls (start document .system)).Nodup := by
  intro document calls
  have hlandings : landings calls (start document .system) = [[0], [0, 0], [0, 0]] := by decide
  rw [hlandings]
  decide

end Walk
end IonDocument
