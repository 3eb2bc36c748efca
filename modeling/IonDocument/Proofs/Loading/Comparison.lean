import IonDocument.Loading
import IonDocument.Proofs.Dialogue.Lockstep
import IonDocument.Proofs.Element.Normal
import IonDocument.Walk

/-! # Runs of loading compared

A limit on the depth, and the fuel, do nothing to loading but end it early. With more of both, a run
goes on where it would have been ended, and nothing else is different: not one call before, and no
result of a run that ended otherwise. Symbol tables are only taken over into the element, so that
with other tables a run gives the element with these in it.
-/
namespace IonDocument
open Dialogue Loading
variable {σ ε : Type}

/-- The second limit is not stricter than the first. No limit is the least strict one. -/
def LimitLe (limit limit' : Option Nat) : Prop :=
  ∀ n', limit' = some n' → ∃ n, limit = some n ∧ n ≤ n'

theorem LimitLe.refl (limit : Option Nat) : LimitLe limit limit := fun n h => ⟨n, h, Nat.le_refl n⟩

def View.mapTable (f : Table → Table) (v : View) : View := { v with table := f v.table }

/-- Every table of the element, at whatever node, replaced by what `f` makes of it. -/
def Element.mapTables (f : Table → Table) (e : Element) : Element := e.withTables fun _ => f

def Value.mapTables (f : Table → Table) (v : Value) : Value := v.withTables fun _ => f

theorem itemsWithTables_eq_map (f : Table → Table) (items : List Element) (i : Nat) :
    itemsWithTables i items (fun _ => f) = items.map (Element.mapTables f) := by
  induction items generalizing i with
  | nil => rfl
  | cons e rest ih => exact congrArg (e.mapTables f :: ·) (ih (i + 1))

theorem fieldsWithTables_eq_map (f : Table → Table) (fields : List (Token × Element)) (i : Nat) :
    fieldsWithTables i fields (fun _ => f) = fields.map (Prod.map id (Element.mapTables f)) := by
  induction fields generalizing i with
  | nil => rfl
  | cons field rest ih => exact congrArg ((field.1, field.2.mapTables f) :: ·) (ih (i + 1))

namespace Element
variable (f : Table → Table)

theorem mapTables_mk (as : List Token) (v : Value) (t : Table) :
    (mk as v t).mapTables f = ⟨as, v.mapTables f, f t⟩ := rfl

end Element

namespace Value
variable (f : Table → Table)

theorem mapTables_struct (fields : List (Token × Element)) : (struct fields).mapTables f =
    .struct (fields.map (Prod.map id (Element.mapTables f))) :=
  congrArg struct (fieldsWithTables_eq_map f fields 0)

theorem mapTables_list (items : List Element) :
    (list items).mapTables f = .list (items.map (Element.mapTables f)) :=
  congrArg list (itemsWithTables_eq_map f items 0)

theorem mapTables_sexp (items : List Element) :
    (sexp items).mapTables f = .sexp (items.map (Element.mapTables f)) :=
  congrArg sexp (itemsWithTables_eq_map f items 0)

end Value

/-- No table is replaced by another one. -/
theorem Element.mapTables_id (e : Element) : e.mapTables id = e := by
  induction e using Element.children_induction with
  | h e ih =>
    have hitems : ∀ items : List Element, (∀ a ∈ items, a.mapTables id = a) →
        items.map (mapTables id) = items :=
      fun items h => (List.map_congr_left h).trans items.map_id
    rcases e with ⟨as, v, t⟩
    rw [mapTables_mk]
    cases v with
    | null k => rfl
    | scalar s => rfl
    | struct fields =>
      have hfields : ∀ field ∈ fields, Prod.map id (mapTables id) field = field := fun field h =>
        Prod.ext rfl (ih _ rfl field.2 (List.mem_map_of_mem h))
      rw [Value.mapTables_struct, List.map_congr_left hfields, List.map_id']
      rfl
    | list items =>
      rw [Value.mapTables_list, hitems items (ih _ rfl)]
      rfl
    | sexp items =>
      rw [Value.mapTables_sexp, hitems items (ih _ rfl)]
      rfl

namespace Loading

/-- Equal up to what `f` does not tell apart. -/
abbrev AlikeViews (f : Table → Table) (v w : View) : Prop := v.mapTable f = w.mapTable f

section
variable {α γ : Type} {f : Table → Table} {limit limit' : Option Nat}
  {child child' : Dialogue Element}

theorem lockstep_checkDepth (V : View → View → Prop) (h : LimitLe limit limit') (depth : Nat) :
    Lockstep V Eq (checkDepth limit depth) (checkDepth limit' depth) := by
  cases hlimit : limit with
  | none =>
    cases hlimit' : limit' with
    | none => exact lockstep_pure rfl
    | some n' =>
      obtain ⟨n, hn, -⟩ := h n' hlimit'
      cases hlimit.symm.trans hn
  | some n =>
    by_cases hdepth : n < depth
    · have hstop : checkDepth (some n) depth = .fail (.tooDeep n) := if_pos hdepth
      rw [hstop]
      exact .tooDeep n _
    · have hpass : checkDepth (some n) depth = pure () := if_neg hdepth
      have hpass' : checkDepth limit' depth = pure () := by
        cases hlimit' : limit' with
        | none => rfl
        | some n' =>
          obtain ⟨m, hm, hle⟩ := h n' hlimit'
          obtain rfl := Option.some.inj (hlimit.symm.trans hm)
          exact if_neg (by omega)
      rw [hpass, hpass']
      exact lockstep_pure rfl

variable
  (hchild : Lockstep (AlikeViews f) (fun e e' => e.mapTables f = e'.mapTables f) child child')
include hchild

theorem lockstep_item : Lockstep (AlikeViews f)
    (fun o o' => o.map (Element.mapTables f) = o'.map (Element.mapTables f))
    (item child) (item child') := by
  refine (lockstep_ask .advance).bind ?_
  rintro k _ rfl
  cases k with
  | none => exact lockstep_pure rfl
  | some k =>
    refine hchild.bind ?_
    intro e e' he
    exact lockstep_pure (congrArg some he)

theorem lockstep_field : Lockstep (AlikeViews f)
    (fun o o' =>
      o.map (Prod.map id (Element.mapTables f)) = o'.map (Prod.map id (Element.mapTables f)))
    (field child) (field child') := by
  refine (lockstep_ask .advance).bind ?_
  rintro k _ rfl
  cases k with
  | none => exact lockstep_pure rfl
  | some k =>
    refine (lockstep_ask .fieldName).bind ?_
    rintro name _ rfl
    refine hchild.bind ?_
    intro e e' he
    exact lockstep_pure (congrArg (fun a => some (name, a)) he)

omit hchild in
theorem lockstep_inside {g : α → γ} {step step' : Dialogue (Option α)} {depth fuel fuel' : Nat}
    (hlimit : LimitLe limit limit') (hfuel : fuel ≤ fuel')
    (hstep : Lockstep (AlikeViews f) (fun o o' => o.map g = o'.map g) step step') :
    Lockstep (AlikeViews f) (fun got got' => got.map g = got'.map g)
      (inside limit depth fuel step) (inside limit' depth fuel' step') := by
  refine (lockstep_checkDepth _ hlimit depth).bind ?_
  rintro _ _ rfl
  refine (lockstep_ask .stepIn).bind ?_
  rintro _ _ rfl
  refine (lockstep_gather hstep hfuel rfl).bind ?_
  intro got got' hgot
  refine (lockstep_ask .stepOut).bind ?_
  rintro _ _ rfl
  exact lockstep_pure hgot

theorem lockstep_value {depth fuel fuel' : Nat} (hlimit : LimitLe limit limit')
    (hfuel : fuel ≤ fuel') (kind : Kind) :
    Lockstep (AlikeViews f) (fun v v' => v.mapTables f = v'.mapTables f)
      (value limit depth fuel child kind) (value limit' depth fuel' child' kind) := by
  cases kind with
  | null => exact .fail _
  | scalar k =>
    refine (lockstep_ask (.read k)).bind ?_
    rintro p _ rfl
    exact lockstep_pure rfl
  | container k =>
    cases k with
    | struct =>
      refine (lockstep_inside hlimit hfuel (lockstep_field hchild)).bind ?_
      intro fields fields' h
      exact lockstep_pure (by rw [Value.mapTables_struct, Value.mapTables_struct, h])
    | list =>
      refine (lockstep_inside hlimit hfuel (lockstep_item hchild)).bind ?_
      intro items items' h
      exact lockstep_pure (by rw [Value.mapTables_list, Value.mapTables_list, h])
    | sexp =>
      refine (lockstep_inside hlimit hfuel (lockstep_item hchild)).bind ?_
      intro items items' h
      exact lockstep_pure (by rw [Value.mapTables_sexp, Value.mapTables_sexp, h])

end

theorem lockstep_element (f : Table → Table) {limit limit' : Option Nat} {fuel fuel' : Nat}
    (hlimit : LimitLe limit limit') (hfuel : fuel ≤ fuel') (depth : Nat) :
    Lockstep (AlikeViews f) (fun e e' => e.mapTables f = e'.mapTables f)
      (element limit fuel depth) (element limit' fuel' depth) := by
  induction fuel generalizing fuel' depth with
  | zero => exact .unfinished _
  | succ fuel ih =>
    obtain ⟨fuel', rfl⟩ : ∃ k, fuel' = k + 1 := ⟨fuel' - 1, by omega⟩
    have hle := Nat.le_of_succ_le_succ hfuel
    refine lockstep_observe.bind ?_
    rintro ⟨kind?, isNull, table, d⟩ ⟨kind?', isNull', table', d'⟩ hview
    obtain ⟨rfl, rfl, htable, rfl⟩ := View.mk.inj hview
    cases kind? with
    | none => exact .fail _
    | some kind =>
      refine (lockstep_ask .annotations).bind ?_
      rintro annotations _ rfl
      cases isNull with
      | true =>
        exact lockstep_pure (by rw [Element.mapTables_mk, Element.mapTables_mk, htable])
      | false =>
        refine (lockstep_value (ih hle (depth + 1)) hlimit hle kind).bind ?_
        intro v v' hv
        exact lockstep_pure (by rw [Element.mapTables_mk, Element.mapTables_mk, hv, htable])

theorem lockstep_load (f : Table → Table) {limit limit' : Option Nat} {fuel fuel' : Nat}
    (hlimit : LimitLe limit limit') (hfuel : fuel ≤ fuel') :
    Lockstep (AlikeViews f) (fun e e' => e.mapTables f = e'.mapTables f)
      (load limit fuel) (load limit' fuel') := by
  refine lockstep_observe.bind ?_
  intro v w hview
  have hdepth : (v.mapTable f).depth = (w.mapTable f).depth := congrArg View.depth hview
  change v.depth = w.depth at hdepth
  rw [hdepth]
  exact lockstep_element f hlimit hfuel _

theorem shows_self (c : Cursor σ ε) : Shows (AlikeViews id) c c where
  view _ := rfl
  perform _ _ := rfl

/-- Over any cursor, the looks and calls under a limit are the first ones of those under a limit
that is not stricter, each made in the same state. A run that ends otherwise than by its limit makes
just the same ones under the other limit, and ends in the same state with the same result. More fuel
changes nothing of this. -/
theorem load_under_looser_limit {limit limit' : Option Nat} (hlimit : LimitLe limit limit')
    {fuel fuel' : Nat} (hfuel : fuel ≤ fuel') (c : Cursor σ ε) (start : σ) :
    (load limit fuel).trace c start <+: (load limit' fuel').trace c start ∧
      ∀ o s, (load limit fuel).run c start = (o, s) → o ≠ .unfinished →
        (∀ n, o ≠ .error (.fault (.tooDeep n))) →
        (load limit' fuel').trace c start = (load limit fuel).trace c start ∧
          (load limit' fuel').run c start = (o, s) := by
  have hload := lockstep_load id hlimit hfuel
  refine ⟨hload.trace_prefix (shows_self c), ?_⟩
  intro o s hrun hend hlimited
  cases o with
  | unfinished => exact absurd rfl hend
  | ok e =>
    obtain ⟨ht, e', hrun', he⟩ := hload.run_ok (shows_self c) hrun
    rw [Element.mapTables_id, Element.mapTables_id] at he
    exact ⟨ht, he ▸ hrun'⟩
  | error e =>
    refine hload.run_error (shows_self c) hrun ?_
    rintro n rfl
    exact hlimited n rfl

/-- Field names fail two levels down. A limit of two comes to that, and a limit of one does not. -/
theorem load_unnamed_field :
    let c : Cursor Walk WalkError := { Walk.cursor with fieldName := fun _ => .error .noField }
    let fields := [(Token.named "a", Element.ofScalar .int 1)]
    let items := [Element.ofValue (.struct fields)]
    let w : Walk := ⟨⟨.items [.ofValue (.list items)], .on 0⟩, [], .system⟩
    let found : Walk := ⟨⟨.fields fields, .on 0⟩, [⟨.items items, .on 0⟩, w.top], .system⟩
    LimitLe (some 1) (some 2) ∧ LimitLe (some 2) none ∧
      (load (some 1) 4).trace c w <+: (load (some 2) 4).trace c w ∧
      (load (some 2) 4).run c w = (.error (.cursor .noField), found) ∧
      (load none 9).run c w = (.error (.cursor .noField), found) := by
  intro c fields items w found
  have hone : LimitLe (some 1) (some 2) := by
    rintro _ ⟨⟩
    exact ⟨1, rfl, by decide⟩
  have htwo : LimitLe (some 2) none := nofun
  have hrun : (load (some 2) 4).run c w = (.error (.cursor .noField), found) := rfl
  have hsame := (load_under_looser_limit htwo (by decide : 4 ≤ 9) c w).2 _ _ hrun nofun nofun
  exact ⟨hone, htwo, (load_under_looser_limit hone (Nat.le_refl 4) c w).1, hrun, hsame.2⟩

end Loading
end IonDocument
