import IonDocument.Proofs.Cursor.Counting
import IonDocument.Proofs.Element.Preorder
import IonDocument.Proofs.Loading.Comparison
import IonDocument.Proofs.Loading.Copy
import IonDocument.Proofs.Loading.Manners

/-! # What loading captures, and when

A run that succeeds lands on the nodes of its element one after another, in document order, and
takes over from the cursor what it shows and says of a node right there, before the value is used
up. So it does not matter what reading the value, or anything later, does to the answers of the
cursor. A cursor whose symbol table depends on how many values were used up makes this visible.
-/
namespace IonDocument.Loading
open Dialogue
variable {σ ε α : Type}

/-- What a node has of a cursor that is in the state `s`. -/
structure Captured (c : Cursor σ ε) (s : σ) (node : Node) : Prop where
  annotations : c.annotations s = .ok node.element.annotations
  table : (c.view s).table = node.element.table
  name : ∀ name, node.name? = some name → c.fieldName s = .ok name
  kind : (c.view s).kind? = some node.element.kind
  isNull : (c.view s).isNull = node.element.isNull

def landed? (c : Cursor σ ε) : Event σ → Option σ
  | .call .advance s =>
    match c.advance s with
    | (.ok (some _), s') => some s'
    | _ => none
  | _ => none

theorem consumes_call_iff {q : Call} {s : σ} : Consumes (.call q s) ↔ q.isUse = true := by
  cases q <;> simp [Consumes, Call.isUse]

instance : (ev : Event σ) → Decidable (Consumes ev)
  | .look _ => .isFalse id
  | .call _ _ => decidable_of_iff _ consumes_call_iff.symm

/-- How many values were used up. -/
def used (past : List (Event σ)) : Nat := past.countP fun ev => Consumes ev

/-- The states in which advances have landed, in this order, and how many values were used up
before. -/
def landings (c : Cursor σ ε) : List (Event σ) → List (σ × Nat)
  | [] => []
  | ev :: past => landings c past ++ ((landed? c ev).map (·, used past)).toList

/-- The nodes are captured at these landings, one at each, and only those that are not null are used
up. Before the first node `n` values were used up, and `m` after the last. -/
inductive Records (c : Cursor σ ε) : Nat → List (σ × Nat) → List Node → Nat → Prop where
  | nil (n : Nat) : Records c n [] [] n
  | cons {n m : Nat} {s : σ} {node : Node} {states : List (σ × Nat)} {nodes : List Node}
      (h : Captured c s node) (hrest : Records c (n + node.uses) states nodes m) :
      Records c n ((s, n) :: states) (node :: nodes) m

/-- From one history to a longer one, these nodes were captured, after `n` values were used up. -/
def Adds (c : Cursor σ ε) (n : Nat) (past : List (Event σ)) (nodes : List Node)
    (past' : List (Event σ)) : Prop :=
  ∃ states, landings c past' = landings c past ++ states ∧ Records c n states nodes (used past')

section
variable {c : Cursor σ ε} {s u : σ} {n m k : Nat} {states states' : List (σ × Nat)}
  {nodes nodes' : List Node} {past past' past'' : List (Event σ)}

theorem landed?_eq_some_iff {ev : Event σ} : landed? c ev = some s ↔ Lands c s ev := by
  constructor
  · intro h
    unfold landed? at h
    split at h
    · split at h
      · cases h
        exact ⟨_, _, rfl, ‹_›⟩
      · cases h
    · cases h
  · rintro ⟨u, k, rfl, hu⟩
    simp only [landed?, hu]

theorem Records.append (h : Records c n states nodes m) (h' : Records c m states' nodes' k) :
    Records c n (states ++ states') (nodes ++ nodes') k := by
  induction h with
  | nil n => exact h'
  | cons h _ ih => exact .cons h (ih h')

theorem Records.captured (h : Records c n states nodes m) :
    List.Forall₂ (Captured c) (states.map Prod.fst) nodes := by
  induction h with
  | nil n => exact .nil
  | cons h _ ih => exact .cons h ih

/-- Every node that is not null counts once. -/
theorem Records.count_eq (h : Records c n states nodes m) : m = n + nodes.countP Node.isFull := by
  induction h with
  | nil n => rfl
  | cons h _ ih => rw [ih, Node.uses, List.countP_cons, Nat.add_assoc, Nat.add_comm (ite ..)]

/-- A node was captured when as many values were used up as nodes before it are not null. -/
theorem Records.exists_landing (h : Records c n states nodes m) {before after : List Node}
    {node : Node} (hnodes : nodes = before ++ node :: after) :
    ∃ s, (s, n + before.countP Node.isFull) ∈ states ∧ Captured c s node := by
  induction h generalizing before with
  | nil n => cases before <;> cases hnodes
  | @cons n m s first states nodes h _ ih =>
    cases before with
    | nil =>
      obtain ⟨rfl, -⟩ := List.cons.inj hnodes
      exact ⟨s, List.mem_cons_self, h⟩
    | cons b before =>
      obtain ⟨rfl, hrest⟩ := List.cons.inj hnodes
      obtain ⟨s', hs', hcaptured⟩ := ih hrest
      refine ⟨s', List.mem_cons_of_mem _ ?_, hcaptured⟩
      rw [List.countP_cons, Nat.add_comm (before.countP _), ← Nat.add_assoc]
      exact hs'

theorem landings_of_none {ev : Event σ} (h : landed? c ev = none) :
    landings c (ev :: past) = landings c past := by
  rw [landings, h]
  exact List.append_nil _

theorem used_of_consumes {ev : Event σ} (h : Consumes ev) : used (ev :: past) = used past + 1 :=
  List.countP_cons_of_pos (decide_eq_true h)

theorem used_of_not_consumes {ev : Event σ} (h : ¬ Consumes ev) : used (ev :: past) = used past :=
  List.countP_cons_of_neg (by simpa using h)

theorem adds_nil (hlandings : landings c past' = landings c past) :
    Adds c (used past') past [] past' :=
  ⟨[], by rw [hlandings, List.append_nil], .nil _⟩

theorem adds_of_consumes {ev : Event σ} (h : Consumes ev) :
    Adds c (used past + 1) past [] (ev :: past) := by
  have hnone : landed? c ev = none := by
    rcases ev with s | ⟨q, s⟩
    · rfl
    · cases q <;> first | rfl | exact h.elim
  rw [← used_of_consumes h]
  exact adds_nil (landings_of_none hnone)

theorem Adds.eq_of_nil (h : Adds c n past [] past') :
    landings c past' = landings c past ∧ used past' = n := by
  obtain ⟨states, hlandings, hrecords⟩ := h
  generalize hused : used past' = m at hrecords
  cases hrecords
  exact ⟨hlandings.trans (List.append_nil _), rfl⟩

theorem Adds.of_landings_eq (h : Adds c n past nodes past'')
    (heq : landings c past = landings c past') : Adds c n past' nodes past'' := by
  obtain ⟨states, hlandings, hrecords⟩ := h
  exact ⟨states, heq ▸ hlandings, hrecords⟩

/-- An event that is no landing, and uses nothing up, changes nothing. -/
theorem Adds.aside {ev : Event σ} (h : Adds c n past nodes past') (hnone : landed? c ev = none)
    (hnot : ¬ Consumes ev) : Adds c n past nodes (ev :: past') := by
  obtain ⟨states, hlandings, hrecords⟩ := h
  refine ⟨states, (landings_of_none hnone).trans hlandings, ?_⟩
  rw [used_of_not_consumes hnot]
  exact hrecords

theorem Adds.trans (h : Adds c n past nodes past') (h' : Adds c (used past') past' nodes' past'') :
    Adds c n past (nodes ++ nodes') past'' := by
  obtain ⟨states, hlandings, hrecords⟩ := h
  obtain ⟨states', hlandings', hrecords'⟩ := h'
  refine ⟨states ++ states', ?_, hrecords.append hrecords'⟩
  rw [hlandings', hlandings, List.append_assoc]

/-- A history with a landing on `s` after `past`, and nothing used up since. -/
structure LandedOn (c : Cursor σ ε) (s : σ) (past landed : List (Event σ)) : Prop where
  last : landings c landed = landings c past ++ [(s, used past)]
  unused : used landed = used past

theorem landedOn_advance {kind : Kind} (h : c.perform .advance u = (.ok (some kind), s)) :
    LandedOn c s past (.call .advance u :: past) := by
  have hlanded : landed? c (.call .advance u) = some s := landed?_eq_some_iff.mpr ⟨u, kind, rfl, h⟩
  refine ⟨?_, used_of_not_consumes id⟩
  rw [landings, hlanded]
  rfl

theorem LandedOn.aside {ev : Event σ} {landed : List (Event σ)} (h : LandedOn c s past landed)
    (hnone : landed? c ev = none) (hnot : ¬ Consumes ev) : LandedOn c s past (ev :: landed) :=
  ⟨(landings_of_none hnone).trans h.last, (used_of_not_consumes hnot).trans h.unused⟩

/-- An element that was landed on is captured there, and then what is in it. -/
theorem LandedOn.adds {landed : List (Event σ)} (h : LandedOn c s past landed)
    {name? : Option Token} {e : Element} (hcaptured : Captured c s ⟨name?, e⟩)
    (hinside : Adds c (used landed + Node.uses ⟨name?, e⟩) landed e.value.nodes past') :
    Adds c (used past) past (e.nodes name?) past' := by
  obtain ⟨states, hlandings, hrecords⟩ := hinside
  refine ⟨(s, used past) :: states, ?_, ?_⟩
  · rw [hlandings, h.last, List.append_assoc]
    rfl
  · rw [h.unused] at hrecords
    rw [Element.nodes_eq]
    exact .cons hcaptured hrecords

end

/-- If the run ends with a result, this and the history at the end satisfy `Q`. -/
abbrev Brings (c : Cursor σ ε) (p : Dialogue α) (s : σ) (past : List (Event σ))
    (Q : α → σ → List (Event σ) → Prop) : Prop :=
  Goes c p s past Q (fun _ _ _ => True) fun _ => True

/-- The value that the cursor is on is captured in the state in which the cursor is, and then what
is in it. -/
def Captures (c : Cursor σ ε) (child : Dialogue Element) : Prop :=
  ∀ s past, Brings c child s past fun e _ past' => Captured c s ⟨none, e⟩ ∧
    Adds c (used past + Node.uses ⟨none, e⟩) past e.value.nodes past'

/-- A step of a loop lands on the next item and captures all its nodes, or finds the end. -/
def StepCaptures (c : Cursor σ ε) (nodesOf : α → List Node) (step : Dialogue (Option α)) : Prop :=
  ∀ s past, Brings c step s past fun o _ past' =>
    Adds c (used past) past (o.elim [] nodesOf) past'

section
variable {c : Cursor σ ε} {s : σ} {past : List (Event σ)} {limit : Option Nat} {depth fuel : Nat}
  {child : Dialogue Element} {nodesOf : α → List Node}

theorem brings_ask {q : Call} {Q : q.Answer → σ → List (Event σ) → Prop}
    (h : ∀ a s', c.perform q s = (.ok a, s') → Q a s' (.call q s :: past)) :
    Brings c (ask q) s past Q :=
  goes_ask h fun _ _ _ => trivial

/-- An advance lands on an item, or finds the end and adds nothing. -/
theorem brings_advance : Brings c (ask .advance) s past fun o s' past' =>
    (o = none → Adds c (used past) past [] past') ∧ (o ≠ none → LandedOn c s' past past') := by
  refine brings_ask ?_
  rintro (_ | kind) s' hq
  · have hnone : landed? c (.call .advance s) = none := by
      change c.advance s = _ at hq
      simp only [landed?, hq]
    exact ⟨fun _ => (adds_nil rfl).aside hnone id, fun h => (h rfl).elim⟩
  · exact ⟨nofun, fun _ => landedOn_advance hq⟩

theorem stepCaptures_item (hchild : Captures c child) :
    StepCaptures c (fun e => e.nodes none) (item child) := by
  intro s past
  refine goes_item brings_advance ?_ ?_
  · rintro s' past' ⟨hend, -⟩
    exact hend rfl
  · rintro kind s' landed ⟨-, hlanded⟩
    refine (hchild s' landed).mono ?_
    rintro e _ past' ⟨hcaptured, hinside⟩
    exact (hlanded nofun).adds hcaptured hinside

theorem stepCaptures_field (hchild : Captures c child) :
    StepCaptures c (fun field => field.2.nodes (some field.1)) (field child) := by
  intro s past
  refine goes_field
    (N := fun name t named => c.fieldName t = .ok name ∧ LandedOn c t past named)
    brings_advance ?_ ?_ ?_
  · rintro s' past' ⟨hend, -⟩
    exact hend rfl
  · rintro kind s' landed ⟨-, hlanded⟩
    refine brings_ask ?_
    intro name t hq
    obtain rfl : s' = t := congrArg Prod.snd hq
    exact ⟨congrArg Prod.fst hq, (hlanded nofun).aside rfl id⟩
  · rintro name t named ⟨hname, hnamed⟩
    refine (hchild t named).mono ?_
    rintro e _ past' ⟨hcaptured, hinside⟩
    refine hnamed.adds ⟨hcaptured.annotations, hcaptured.table, ?_, hcaptured.kind,
      hcaptured.isNull⟩ hinside
    rintro _ ⟨⟩
    exact hname

theorem brings_inside {step : Dialogue (Option α)} (hstep : StepCaptures c nodesOf step) :
    Brings c (inside limit depth fuel step) s past fun got _ past' =>
      Adds c (used past + 1) past (got.flatMap nodesOf) past' := by
  -- What the loop has collected so far are the nodes captured since the step in.
  refine goes_inside
    (I := fun got _ past' => Adds c (used past + 1) past (got.reverse.flatMap nodesOf) past')
    (D := fun got _ past' => Adds c (used past + 1) past (got.flatMap nodesOf) past')
    (fun _ _ _ => trivial) ?_ ?_ (fun _ _ _ _ _ => trivial) ?_
  · intro _
    refine brings_ask ?_
    rintro _ t -
    exact adds_of_consumes trivial
  · intro got t collected hcollected
    refine (hstep t collected).mono ?_
    rintro (_ | a) _ past' h
    · have hall := hcollected.trans h
      rw [Option.elim_none, List.append_nil] at hall
      exact hall
    · have hmore := hcollected.trans h
      change Adds c (used past + 1) past ((a :: got).reverse.flatMap nodesOf) past'
      rw [List.reverse_cons, List.flatMap_append, List.flatMap_singleton]
      exact hmore
  · intro got t ended hended
    refine brings_ask ?_
    rintro _ s' -
    exact hended.aside rfl id

/-- A value that is not null is used up once, and its nodes are captured after that. -/
theorem brings_value (hchild : Captures c child) (kind : Kind) :
    Brings c (value limit depth fuel child kind) s past fun v _ past' =>
      v.kind = kind ∧ v.isNull = false ∧ Adds c (used past + 1) past v.nodes past' := by
  refine goes_value (fun _ => trivial) ?_ ?_ ?_ ?_
  · rintro k rfl
    refine brings_ask ?_
    rintro p s' -
    exact ⟨rfl, rfl, adds_of_consumes trivial⟩
  · rintro rfl
    refine (brings_inside (stepCaptures_field hchild)).mono ?_
    intro fields _ past' h
    rw [← fieldsNodes_eq_flatMap] at h
    exact ⟨rfl, rfl, h⟩
  all_goals
    rintro rfl
    refine (brings_inside (stepCaptures_item hchild)).mono ?_
    intro items _ past' h
    rw [← itemsNodes_eq_flatMap] at h
    exact ⟨rfl, rfl, h⟩

end

theorem captures_element (c : Cursor σ ε) (limit : Option Nat) (fuel depth : Nat) :
    Captures c (element limit fuel depth) := by
  induction fuel generalizing depth with
  | zero => exact fun s past => goes_unfinished trivial
  | succ fuel ih =>
    intro s past
    have hseen : Adds c (used past) past [] (.look s :: past) := (adds_nil rfl).aside rfl id
    rw [element_succ]
    refine goes_node (T := fun names _ told => c.annotations s = .ok names ∧
      Adds c (used past) past [] told) (fun _ => trivial) ?_ ?_ ?_
    · intro kind hkind
      refine brings_ask ?_
      intro names t hq
      exact ⟨congrArg Prod.fst hq, hseen.aside rfl id⟩
    · rintro kind names t told hkind hnull ⟨hnames, htold⟩
      exact ⟨⟨hnames, rfl, nofun, hkind, hnull⟩, htold⟩
    · rintro kind names t told hkind hnull ⟨hnames, htold⟩
      refine (brings_value (ih (depth + 1)) kind).mono ?_
      rintro v _ past' ⟨rfl, hfull, hinside⟩
      refine ⟨⟨hnames, rfl, nofun, hkind, hnull.trans hfull.symm⟩, ?_⟩
      obtain ⟨hlandings, hused⟩ := htold.eq_of_nil
      have huses : Node.uses ⟨none, ⟨names, v, (c.view s).table⟩⟩ = 1 :=
        if_pos (congrArg not hfull)
      rw [huses, ← hused]
      exact hinside.of_landings_eq hlandings

/-- All of a run that succeeds: the root is captured where loading starts. -/
theorem records_of_load {c : Cursor σ ε} {limit : Option Nat} {fuel : Nat} {start s : σ}
    {e : Element} (hrun : (load limit fuel).run c start = (.ok e, s)) :
    Records c 0 ((start, 0) :: landings c (history c limit fuel start)) (e.nodes none)
      (used (history c limit fuel start)) := by
  have hload : Brings c (load limit fuel) start [] fun e _ past' =>
      Captured c start ⟨none, e⟩ ∧ Adds c (Node.uses ⟨none, e⟩) [] e.value.nodes past' := by
    have hseen : Adds c 0 [] [] [.look start] := (adds_nil rfl).aside rfl id
    obtain ⟨hlandings, hused⟩ := hseen.eq_of_nil
    refine goes_load ((captures_element c limit fuel _ start _).mono ?_)
    rintro e _ past' ⟨hcaptured, hinside⟩
    rw [hused, Nat.zero_add] at hinside
    exact ⟨hcaptured, hinside.of_landings_eq hlandings⟩
  simp only [Brings, Goes, hrun, List.append_nil] at hload
  obtain ⟨hcaptured, states, hlandings, hrecords⟩ := hload
  rw [Element.nodes_eq]
  refine .cons hcaptured ?_
  rw [Nat.zero_add]
  change landings c (history c limit fuel start) = _ at hlandings
  rw [hlandings]
  exact hrecords

/-- The count of a state is right after a history, and it was at every landing. -/
structure CountsRight (c : Cursor (σ × Nat) ε) (k : Nat) (s : σ × Nat)
    (past : List (Event (σ × Nat))) : Prop where
  count : s.2 = k + used past
  atLandings : ∀ l ∈ landings c past, l.1.2 = k + l.2

section
variable {c : Cursor σ ε} {table : σ → Nat → Table} {k : Nat} {s : σ × Nat}
  {past : List (Event (σ × Nat))}

theorem CountsRight.look (h : CountsRight (c.counting table) k s past) :
    CountsRight (c.counting table) k s (.look s :: past) := by
  refine ⟨?_, ?_⟩
  · rw [used_of_not_consumes id]
    exact h.count
  · rw [landings_of_none rfl]
    exact h.atLandings

theorem CountsRight.call (q : Call) (h : CountsRight (c.counting table) k s past) :
    CountsRight (c.counting table) k ((c.counting table).perform q s).2 (.call q s :: past) := by
  have hperform := c.perform_counting table q s
  refine ⟨?_, ?_⟩
  · rw [hperform]
    by_cases hq : q.isUse = true
    · rw [used_of_consumes (consumes_call_iff.mpr hq), h.count, if_pos hq, Nat.add_assoc]
    · rw [used_of_not_consumes (consumes_call_iff.not.mpr hq), h.count, if_neg hq, Nat.add_zero]
  · intro l hl
    rcases List.mem_append.mp hl with hl | hl
    · exact h.atLandings l hl
    · obtain ⟨t, ht, rfl⟩ := Option.map_eq_some_iff.mp (Option.mem_toList.mp hl)
      obtain ⟨u, kind, hev, hu⟩ := landed?_eq_some_iff.mp ht
      obtain ⟨rfl, rfl⟩ := Event.call.inj hev
      have hstay : t.2 = s.2 := congrArg (fun x => x.2.2) (hu.symm.trans hperform)
      exact hstay.trans h.count

theorem countsRight_after_run (c : Cursor σ ε) (table : σ → Nat → Table) (p : Dialogue α)
    (start : σ) (k : Nat) : CountsRight (c.counting table) k (p.run (c.counting table) (start, k)).2
      (p.trace (c.counting table) (start, k)).reverse := by
  have hstart : CountsRight (c.counting table) k (start, k) [] := ⟨rfl, List.forall_mem_nil _⟩
  have hend := holds_after_run (CountsRight (c.counting table) k) (fun _ _ h => h.look)
    (fun q _ _ h => h.call q) p hstart
  rw [List.append_nil] at hend
  exact hend

end

theorem shows_counting (c : Cursor σ ε) (table table' : σ → Nat → Table) :
    Shows (AlikeViews fun _ => .system) (c.counting table) (c.counting table') where
  view _ := rfl
  perform q s := by rw [c.perform_counting, c.perform_counting]

/-- Whatever tables are shown, a run over the counting cursor is one over the cursor inside. -/
theorem run_counting {c : Cursor σ ε} {limit : Option Nat} {fuel : Nat} {start s : σ} {e : Element}
    (hrun : (load limit fuel).run c start = (.ok e, s)) (table : σ → Nat → Table) (k : Nat) :
    ∃ a n, (load limit fuel).run (c.counting table) (start, k) = (.ok a, s, n) ∧
      e.mapTables (fun _ => .system) = a.mapTables fun _ => .system := by
  obtain ⟨o, ⟨t, n⟩, _, hown, hinner, rfl⟩ :=
    (run_simulates c.simulates_counting (load limit fuel) (s := (start, k)) rfl).exists_eq
  rw [hrun] at hinner
  cases hinner
  have hload := lockstep_load (fun _ => .system) (LimitLe.refl limit) (Nat.le_refl fuel)
  obtain ⟨-, a, ha, halike⟩ := hload.run_ok (shows_counting c _ table) hown
  exact ⟨a, n, ha, halike⟩

/-- In a run that succeeds, each node of the element has the annotations, the table and the name
that the cursor gave where it landed on the node, and the kind and nullness that it showed there;
the root has those of the start. The landings come in document order. So over a cursor whose table
depends on how many values were used up, the table of a node tells how many nodes before it are not
null. -/
theorem load_captures_at_landings (c : Cursor σ ε) (limit : Option Nat) (fuel : Nat) (start : σ) :
    (∀ e s, (load limit fuel).run c start = (.ok e, s) →
      e.paths.map e.at? = (e.nodes none).map (some ·.element) ∧ List.Forall₂ (Captured c)
        (start :: (landings c (history c limit fuel start)).map Prod.fst) (e.nodes none)) ∧
    ∀ (T : Nat → Table) (k : Nat),
      let counted := (load limit fuel).run (c.counting fun _ => T) (start, k)
      (∀ e s, (load limit fuel).run c start = (.ok e, s) → ∃ a n, counted = (.ok a, s, n) ∧
        e.mapTables (fun _ => .system) = a.mapTables fun _ => .system) ∧
      ∀ a s n, counted = (.ok a, s, n) → n = k + (a.nodes none).countP Node.isFull ∧
        ∀ before node after, a.nodes none = before ++ node :: after →
          node.element.table = T (k + before.countP Node.isFull) := by
  refine ⟨fun e s hrun => ⟨e.map_at?_paths none, (records_of_load hrun).captured⟩, ?_⟩
  intro T k counted
  refine ⟨fun e s hrun => run_counting hrun (fun _ => T) k, ?_⟩
  intro a s n hrun
  have hrecords := records_of_load hrun
  obtain ⟨hcount, hlandings⟩ := countsRight_after_run c (fun _ => T) (load limit fuel) start k
  change counted.2.2 = k + used (history _ limit fuel (start, k)) at hcount
  rw [hrun, hrecords.count_eq, Nat.zero_add] at hcount
  refine ⟨hcount, ?_⟩
  intro before node after hnodes
  obtain ⟨⟨x, m⟩, hmem, hcaptured⟩ := hrecords.exists_landing hnodes
  rw [Nat.zero_add] at hmem
  have hm : m = k + before.countP Node.isFull := by
    rcases List.mem_cons.mp hmem with h | h
    · obtain ⟨hx, hzero⟩ := Prod.mk.inj h
      rw [hzero]
      exact congrArg Prod.snd hx
    · exact hlandings _ h
  have htable : T m = node.element.table := hcaptured.table
  rw [← htable, hm]

/-- An empty list, a null and a string in a list, under a table that grows with every value that is
used up. Before the string two nodes are not null, and before the start values were used up seven
times. -/
theorem load_captures_growing_tables :
    let T (n : Nat) : Table := .ofLocals (List.replicate n none)
    let e := Element.ofValue
      (.list [.ofValue (.list []), .ofValue (.null .null), .ofScalar .string "a"])
    let string : Element := ⟨[], .scalar ⟨.string, "a"⟩, T 9⟩
    let a : Element := ⟨[], .list [⟨[], .list [], T 8⟩, ⟨[], .null .null, T 9⟩, string], T 7⟩
    let w : Walk := ⟨⟨.items [e], .on 0⟩, [], .system⟩
    (load none 5).run (Walk.cursor.counting fun _ => T) (w, 7) = (.ok a, w, 10) ∧
      ∃ before, a.nodes none = before ++ [⟨none, string⟩] ∧ before.countP Node.isFull = 2 ∧
        string.table = T (7 + before.countP Node.isFull) := by
  intro T
  -- Which tables these are does not matter for the run.
  clear_value T
  intro e string a w
  have hrun : (load none 5).run (Walk.cursor.counting fun _ => T) (w, 7) = (.ok a, w, 10) := rfl
  obtain ⟨-, hnodes⟩ := ((load_captures_at_landings Walk.cursor none 5 w).2 T 7).2 a w 10 hrun
  have hsplit : a.nodes none = [⟨none, a⟩, ⟨none, _⟩, ⟨none, _⟩] ++ [⟨none, string⟩] := rfl
  exact ⟨hrun, _, hsplit, rfl, hnodes _ _ _ hsplit⟩

end IonDocument.Loading
