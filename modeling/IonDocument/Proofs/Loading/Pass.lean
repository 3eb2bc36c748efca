import IonDocument.Proofs.Element.Calls
import IonDocument.Proofs.Loading.Landing

/-! # Loading in a single pass

A run that succeeds has made exactly the calls that its element takes, whatever cursor it was made
over. So nothing is read twice, no null is stepped into, and no container is left before its end was
found. Over a walk all these calls are answered, and this is then what loading costs.
-/
namespace IonDocument.Loading
open Dialogue
variable {σ ε α : Type} {c : Cursor σ ε}

/-- The call that an event is; a look is none. -/
def call? : Event σ → Option Call
  | .look _ => none
  | .call q _ => some q

/-- The calls of a history, in the order in which they were made. -/
def asked (past : List (Event σ)) : List Call := (past.filterMap call?).reverse

theorem asked_call (q : Call) (s : σ) (past : List (Event σ)) :
    asked (.call q s :: past) = asked past ++ [q] := by
  simp [asked, call?]

/-- A run that succeeds asks what its result takes. -/
def Asks (c : Cursor σ ε) (p : Dialogue α) (calls : α → List Call) : Prop :=
  ∀ s past, Brings c p s past fun a _ past' => asked past' = asked past ++ calls a

theorem asks_ask (q : Call) : Asks c (ask q) fun _ => [q] :=
  fun s past => brings_ask fun _ _ _ => asked_call q s past

section
variable {limit : Option Nat} {depth fuel : Nat} {child : Dialogue Element}

theorem asks_item (hchild : Asks c child Element.calls) :
    Asks c (item child) fun o => .advance :: o.elim [] Element.calls := by
  intro s past
  refine goes_item (asks_ask .advance s past) ?_ ?_
  · intro s₁ past₁ h₁
    exact h₁
  · intro kind s₁ past₁ h₁
    refine (hchild s₁ past₁).mono ?_
    intro e _ past₂ h₂
    rw [h₁, List.append_assoc] at h₂
    exact h₂

theorem asks_field (hchild : Asks c child Element.calls) : Asks c (field child) fun o =>
    .advance :: o.elim [] fun field => .fieldName :: field.2.calls := by
  intro s past
  refine goes_field (N := fun _ _ named => asked named = asked past ++ [.advance, .fieldName])
    (asks_ask .advance s past) ?_ ?_ ?_
  · intro s₁ past₁ h₁
    exact h₁
  · intro kind s₁ past₁ h₁
    refine (asks_ask .fieldName s₁ past₁).mono ?_
    intro name _ past₂ h₂
    rw [h₁, List.append_assoc] at h₂
    exact h₂
  · intro name s₂ past₂ h₂
    refine (hchild s₂ past₂).mono ?_
    intro e _ past₃ h₃
    rw [h₂, List.append_assoc] at h₃
    exact h₃

/-- Between the step in and the step out there are the advances with what follows each of them, and
the last one finds nothing. -/
theorem asks_inside {step : Dialogue (Option α)} {calls : α → List Call}
    (hstep : Asks c step fun o => .advance :: o.elim [] calls) :
    Asks c (inside limit depth fuel step) fun got =>
      .stepIn :: (got.flatMap (fun a => .advance :: calls a) ++ [.advance, .stepOut]) := by
  intro s past
  -- What was asked since the step in belongs to the items collected so far.
  refine goes_inside
    (I := fun got _ past' => asked past' =
      asked past ++ .stepIn :: got.reverse.flatMap fun a => .advance :: calls a)
    (D := fun got _ past' => asked past' =
      asked past ++ .stepIn :: (got.flatMap (fun a => .advance :: calls a) ++ [.advance]))
    (fun _ _ _ => trivial) (fun _ => asks_ask .stepIn s past) ?_ (fun _ _ _ _ _ => trivial) ?_
  · intro got t collected hcollected
    refine (hstep t collected).mono ?_
    intro o _ past' h
    rw [hcollected, List.append_assoc] at h
    cases o with
    | none => exact h
    | some a =>
      change _ = _ ++ Call.stepIn :: (a :: got).reverse.flatMap _
      rw [List.reverse_cons, List.flatMap_append, List.flatMap_singleton]
      exact h
  · intro got t ended hended
    refine (asks_ask .stepOut t ended).mono ?_
    intro _ _ past' h
    rw [h, hended]
    simp

theorem asks_value (hchild : Asks c child Element.calls) (kind : Kind) :
    Asks c (value limit depth fuel child kind) Value.calls := by
  intro s past
  refine goes_value (fun _ => trivial) ?_ ?_ ?_ ?_
  · intro k _
    exact asks_ask (.read k) s past
  · intro _
    refine (asks_inside (asks_field hchild) s past).mono ?_
    intro fields _ past' h
    dsimp only at h
    rw [← fieldsCalls_eq_flatMap] at h
    exact h
  all_goals
    intro _
    refine (asks_inside (asks_item hchild) s past).mono ?_
    intro items _ past' h
    dsimp only at h
    rw [← itemsCalls_eq_flatMap] at h
    exact h

end

theorem asks_element (c : Cursor σ ε) (limit : Option Nat) (fuel depth : Nat) :
    Asks c (element limit fuel depth) Element.calls := by
  induction fuel generalizing depth with
  | zero => exact fun s past => goes_unfinished trivial
  | succ fuel ih =>
    intro s past
    rw [element_succ]
    refine goes_node (T := fun _ _ told => asked told = asked past ++ [.annotations])
      (fun _ => trivial) (fun _ _ => asks_ask .annotations s _) ?_ ?_
    · intro kind names t told _ _ htold
      exact htold
    · intro kind names t told _ _ htold
      refine (asks_value (ih (depth + 1)) kind t told).mono ?_
      intro v _ past' h
      rw [htold, List.append_assoc] at h
      exact h

/-- Whatever a cursor answers, what was asked of it can be told from the element. -/
theorem asked_of_load {limit : Option Nat} {fuel : Nat} {s s' : σ} {e : Element}
    (hrun : (load limit fuel).run c s = (.ok e, s')) :
    asked (history c limit fuel s) = e.calls := by
  have hload : Brings c (load limit fuel) s [] fun e _ past' => asked past' = e.calls :=
    goes_load (asks_element c limit fuel _ s _)
  simp only [Brings, Goes, hrun, List.append_nil] at hload
  exact hload

/-- Loading what a walk is on makes the calls that the element takes and no others. Every node has
its name, if it is a field, and its annotations asked once, in document order, and after this its
scalar read or its container stepped into; there is one advance for each child, and one more for each
container, which is then stepped out of. -/
theorem load_asks_each_node_once (w : Walk) {e : Element} (he : w.current? = some e) {fuel : Nat}
    (hfuel : e.size < fuel) :
    let calls := asked (history Walk.cursor none fuel w)
    let nodes := e.nodes none
    (load none fuel).run Walk.cursor w = (.ok e, w) ∧ calls = e.calls ∧
      calls.filter (!·.isLater) = nodes.flatMap Node.opening ∧
      calls.count .annotations = nodes.length ∧
      calls.count .fieldName = nodes.countP (·.name?.isSome) ∧
      (∀ k, calls.count (.read k) = nodes.countP (Node.isScalar k)) ∧
      calls.count .stepIn = nodes.countP Node.isContainer ∧
      calls.count .stepOut = nodes.countP Node.isContainer ∧
      calls.count .advance = e.value.nodes.length + nodes.countP Node.isContainer := by
  intro calls nodes
  have hrun := run_load_of_current he hfuel
  have hcalls : calls = e.calls := asked_of_load hrun
  rw [hcalls]
  refine ⟨hrun, rfl, e.filter_calls none, e.count_annotations, ?_, ?_, ?_, ?_, e.count_advance⟩
  · exact e.count_calls_of_some (q := .fieldName) nofun fun _ => rfl
  · intro k
    exact e.count_calls_of_some (q := .read k) nofun fun _ => rfl
  · exact e.count_calls_of_some (q := .stepIn) nofun fun _ => rfl
  · exact e.count_calls_of_some (q := .stepOut) nofun fun _ => rfl

/-- A struct in a list, with a null, a list and an empty s-expression in its fields. -/
theorem load_asks_fields_once :
    let list := Element.ofValue (.list [.ofScalar .int 1, .ofScalar .string "a"])
    let e := Element.ofValue (.struct [(.named "n", .ofValue (.null (.container .list))),
      (.named "l", list), (.named "n", .ofValue (.sexp []))])
    let w : Walk := ⟨⟨.items [list, e], .on 1⟩, [⟨.items [.ofValue (.list [list, e])], .on 0⟩], .system⟩
    let calls := asked (history Walk.cursor none 7 w)
    w.current? = some e ∧ e.size < 7 ∧ calls =
      [.annotations, .stepIn, .advance, .fieldName, .annotations,
        .advance, .fieldName, .annotations, .stepIn, .advance, .annotations, .read .int,
        .advance, .annotations, .read .string, .advance, .stepOut,
        .advance, .fieldName, .annotations, .stepIn, .advance, .stepOut, .advance, .stepOut] ∧
      calls.count .advance = 5 + 3 := by
  intro list e w calls
  have hsize : e.size < 7 := by decide
  obtain ⟨-, hcalls, -, -, -, -, -, -, hadvance⟩ := load_asks_each_node_once w (e := e) rfl hsize
  exact ⟨rfl, hsize, hcalls.trans rfl, hadvance.trans rfl⟩

end IonDocument.Loading
