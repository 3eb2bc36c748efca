import IonDocument.Loading
import IonDocument.Proofs.Dialogue.Trace

/-! # Rules for loading

One rule for each part of loading. What is to be shown of a part is shown of its calls, one after
another, with an assertion of one's own in between; for the loop over the children there is an
invariant. What holds of loading as a whole is put together from these rules, so that no other
proof follows the program.
-/
namespace IonDocument.Loading
open Dialogue
variable {σ ε α : Type} {c : Cursor σ ε} {s : σ} {past : List (Event σ)}
  {E : ReadError ε → σ → List (Event σ) → Prop} {U : List (Event σ) → Prop}
  {limit : Option Nat} {depth fuel : Nat} {child : Dialogue Element}

theorem goes_checkDepth {Q : Unit → σ → List (Event σ) → Prop}
    (hdeep : ∀ n ∈ limit, n < depth → E (.fault (.tooDeep n)) s past)
    (hpass : (∀ n ∈ limit, depth ≤ n) → Q () s past) :
    Goes c (checkDepth limit depth) s past Q E U := by
  cases limit with
  | none => exact goes_pure (hpass nofun)
  | some n =>
    by_cases hn : n < depth
    · have hcheck : checkDepth (some n) depth = .fail (.tooDeep n) := if_pos hn
      rw [hcheck]
      exact goes_fail (hdeep n rfl hn)
    · have hcheck : checkDepth (some n) depth = pure () := if_neg hn
      rw [hcheck]
      refine goes_pure (hpass ?_)
      rintro _ ⟨⟩
      exact Nat.le_of_not_lt hn

theorem goes_item {A : Option Kind → σ → List (Event σ) → Prop}
    {Q : Option Element → σ → List (Event σ) → Prop}
    (hadvance : Goes c (ask .advance) s past A E U)
    (hend : ∀ s' past', A none s' past' → Q none s' past')
    (hchild : ∀ kind s' past', A (some kind) s' past' →
      Goes c child s' past' (fun e => Q (some e)) E U) :
    Goes c (item child) s past Q E U := by
  refine hadvance.bind ?_
  intro o s' past' h
  cases o with
  | none => exact goes_pure (hend s' past' h)
  | some kind => exact (hchild kind s' past' h).bind fun _ _ _ h' => goes_pure h'

theorem goes_field {A : Option Kind → σ → List (Event σ) → Prop}
    {N : Token → σ → List (Event σ) → Prop}
    {Q : Option (Token × Element) → σ → List (Event σ) → Prop}
    (hadvance : Goes c (ask .advance) s past A E U)
    (hend : ∀ s' past', A none s' past' → Q none s' past')
    (hname : ∀ kind s' past', A (some kind) s' past' → Goes c (ask .fieldName) s' past' N E U)
    (hchild : ∀ name s' past', N name s' past' →
      Goes c child s' past' (fun e => Q (some (name, e))) E U) :
    Goes c (field child) s past Q E U := by
  refine hadvance.bind ?_
  intro o s' past' h
  cases o with
  | none => exact goes_pure (hend s' past' h)
  | some kind =>
    refine (hname kind s' past' h).bind ?_
    intro name s'' past'' h'
    exact (hchild name s'' past'' h').bind fun _ _ _ h'' => goes_pure h''

/-- The container is stepped into unless it is too deep, and stepped out of where the loop has found
the end. -/
theorem goes_inside {step : Dialogue (Option α)} {I D : List α → σ → List (Event σ) → Prop}
    {Q : List α → σ → List (Event σ) → Prop}
    (hdeep : ∀ n ∈ limit, n < depth → E (.fault (.tooDeep n)) s past)
    (henter : (∀ n ∈ limit, depth ≤ n) → Goes c (ask .stepIn) s past (fun _ => I []) E U)
    (hstep : ∀ got s past, I got s past → Goes c step s past (AfterStep I D got) E U)
    (hspent : ∀ got s past, got.length = fuel → I got s past → U past)
    (hleave : ∀ got s past, D got s past →
      Goes c (ask .stepOut) s past (fun _ => Q got) E U) :
    Goes c (inside limit depth fuel step) s past Q E U := by
  refine (goes_checkDepth (Q := fun _ s' past' =>
    Goes c (ask .stepIn) s' past' (fun _ => I []) E U) hdeep henter).bind ?_
  intro _ s past henter
  refine henter.bind ?_
  intro _ s past h
  refine (goes_gather hstep hspent (Nat.zero_add fuel) h).bind ?_
  intro got s past h
  exact (hleave got s past h).bind fun _ _ _ h' => goes_pure h'

theorem goes_value {kind : Kind} {Q : Value → σ → List (Event σ) → Prop}
    (hnull : kind = .null → E (.fault (.misreport .nullWithValue)) s past)
    (hread : ∀ k, kind = .scalar k →
      Goes c (ask (.read k)) s past (fun p => Q (.scalar ⟨k, p⟩)) E U)
    (hstruct : kind = .container .struct →
      Goes c (inside limit depth fuel (field child)) s past (fun fields => Q (.struct fields)) E U)
    (hlist : kind = .container .list →
      Goes c (inside limit depth fuel (item child)) s past (fun items => Q (.list items)) E U)
    (hsexp : kind = .container .sexp →
      Goes c (inside limit depth fuel (item child)) s past (fun items => Q (.sexp items)) E U) :
    Goes c (value limit depth fuel child kind) s past Q E U := by
  cases kind with
  | null => exact goes_fail (hnull rfl)
  | scalar k => exact (hread k rfl).bind fun _ _ _ h => goes_pure h
  | container k =>
    cases k with
    | struct => exact (hstruct rfl).bind fun _ _ _ h => goes_pure h
    | list => exact (hlist rfl).bind fun _ _ _ h => goes_pure h
    | sexp => exact (hsexp rfl).bind fun _ _ _ h => goes_pure h

/-- The value that the cursor is on, at a depth, with what loads its children as a parameter. -/
def node (limit : Option Nat) (depth fuel : Nat) (child : Dialogue Element) :
    Dialogue Element := do
  let view ← observe
  match view.kind? with
  | none => .fail (.misreport .noValue)
  | some kind =>
    let annotations ← ask .annotations
    let v ← if view.isNull then pure (.null kind) else value limit (depth + 1) fuel child kind
    return ⟨annotations, v, view.table⟩

theorem element_succ (limit : Option Nat) (fuel depth : Nat) :
    element limit (fuel + 1) depth = node limit depth fuel (element limit fuel (depth + 1)) := rfl

/-- All of an element but its annotations and its value is what the cursor shows at first. -/
theorem goes_node {T : List Token → σ → List (Event σ) → Prop}
    {Q : Element → σ → List (Event σ) → Prop}
    (hnone : (c.view s).kind? = none → E (.fault (.misreport .noValue)) s (.look s :: past))
    (htell : ∀ kind, (c.view s).kind? = some kind →
      Goes c (ask .annotations) s (.look s :: past) T E U)
    (hnull : ∀ kind names s' past', (c.view s).kind? = some kind → (c.view s).isNull = true →
      T names s' past' → Q ⟨names, .null kind, (c.view s).table⟩ s' past')
    (hvalue : ∀ kind names s' past', (c.view s).kind? = some kind → (c.view s).isNull = false →
      T names s' past' → Goes c (value limit (depth + 1) fuel child kind) s' past'
        (fun v => Q ⟨names, v, (c.view s).table⟩) E U) :
    Goes c (node limit depth fuel child) s past Q E U := by
  refine (goes_observe (Q := fun v s' seen => v = c.view s ∧ s' = s ∧ seen = .look s :: past)
    ⟨rfl, rfl, rfl⟩).bind ?_
  rintro _ s' _ ⟨rfl, hs', rfl⟩
  rw [hs']
  cases hkind : (c.view s).kind? with
  | none => exact goes_fail (hnone hkind)
  | some kind =>
    refine (htell kind hkind).bind ?_
    intro names s' past' h
    cases hisNull : (c.view s).isNull with
    | true => exact goes_pure (hnull kind names s' past' hkind hisNull h)
    | false =>
      exact (hvalue kind names s' past' hkind hisNull h).bind fun _ _ _ h' => goes_pure h'

theorem goes_load {Q : Element → σ → List (Event σ) → Prop}
    (h : Goes c (element limit fuel (c.view s).depth) s (.look s :: past) Q E U) :
    Goes c (load limit fuel) s past Q E U := by
  refine (goes_observe (Q := fun v s' seen => v = c.view s ∧ s' = s ∧ seen = .look s :: past)
    ⟨rfl, rfl, rfl⟩).bind ?_
  rintro _ s' _ ⟨rfl, hs', rfl⟩
  rw [hs']
  exact h

end IonDocument.Loading
