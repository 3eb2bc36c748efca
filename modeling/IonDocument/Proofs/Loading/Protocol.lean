import IonDocument.Proofs.Loading.Rules

/-! # The protocol of loading

What may be asked of a cursor depends on what was asked before. A history has the last event
first; it determines which containers are still open and which stage is reached, and so what is
due next. Loading asks only what is due, whatever the cursor answers, and stops where nothing is.
-/
namespace IonDocument.Loading
open Dialogue
variable {σ ε α β : Type}

/-- The states in which the containers that are still open were stepped into, innermost first. -/
def opened (c : Cursor σ ε) : List (Event σ) → List σ
  | [] => []
  | .call .stepIn s :: past =>
    match (c.stepIn s).1 with
    | .ok _ => s :: opened c past
    | .error _ => opened c past
  | .call .stepOut _ :: past => (opened c past).tail
  | _ :: past => opened c past

/-- Whether the innermost open container was reported as a struct. -/
def inStruct (c : Cursor σ ε) (past : List (Event σ)) : Bool :=
  (opened c past).head?.any fun s => (c.view s).kind? = some (.container .struct)

/-- How far loading has come with the value that the cursor is on, or with the container around
it. -/
inductive Stage (σ : Type) where
  /-- On a value of which nothing was asked yet, its field name apart. -/
  | arrived (s : σ)
  /-- On the value of a field whose name was not asked yet. -/
  | unnamed (s : σ)
  /-- On a value that is not null, with its annotations known. -/
  | described (s : σ)
  /-- A value is loaded as a whole. -/
  | completed (s : σ)
  | entered (s : σ)
  | ended (s : σ)
  | failed

/-- The stage after an answered call. -/
def Stage.next (c : Cursor σ ε) (past : List (Event σ)) : (q : Call) → q.Answer → σ → Stage σ
  | .annotations, _, s => if (c.view s).isNull then .completed s else .described s
  | .fieldName, _, s => .arrived s
  | .advance, none, s => .ended s
  | .advance, some _, s => if inStruct c past then .unnamed s else .arrived s
  | .stepIn, _, s => .entered s
  | .stepOut, _, s => .completed s
  | .read _, _, s => .completed s

def stage (c : Cursor σ ε) (start : σ) : List (Event σ) → Stage σ
  | [] => .arrived start
  | .look _ :: past => stage c start past
  | .call q u :: past =>
    match c.perform q u with
    | (.ok a, s) => Stage.next c past q a s
    | (.error _, _) => .failed

/-- What may be asked next, and in which state. -/
inductive Due (c : Cursor σ ε) (start : σ) (past : List (Event σ)) : Event σ → Prop where
  | look {s : σ} (h : stage c start past = .arrived s) : Due c start past (.look s)
  | annotations {s : σ} {kind : Kind} (h : stage c start past = .arrived s)
      (hkind : (c.view s).kind? = some kind) : Due c start past (.call .annotations s)
  | fieldName {s : σ} (h : stage c start past = .unnamed s) :
      Due c start past (.call .fieldName s)
  | read {s : σ} {k : ScalarKind} (h : stage c start past = .described s)
      (hkind : (c.view s).kind? = some (.scalar k)) (hnull : (c.view s).isNull = false) :
      Due c start past (.call (.read k) s)
  | stepIn {s : σ} {k : ContainerKind} (h : stage c start past = .described s)
      (hkind : (c.view s).kind? = some (.container k)) (hnull : (c.view s).isNull = false) :
      Due c start past (.call .stepIn s)
  | advance {s : σ} (h : stage c start past = .entered s ∨ stage c start past = .completed s)
      (hopen : opened c past ≠ []) : Due c start past (.call .advance s)
  | stepOut {s : σ} (h : stage c start past = .ended s) (hopen : opened c past ≠ []) :
      Due c start past (.call .stepOut s)

section
variable {c : Cursor σ ε} {start s : σ} {past : List (Event σ)} {ev : Event σ}

theorem Due.of_arrived (hdue : Due c start past ev) (h : stage c start past = .arrived s) :
    ev = .look s ∨ ev = .call .annotations s ∧ (c.view s).kind? ≠ none := by
  cases hdue with
  | look hs =>
    obtain rfl := Stage.arrived.inj (h.symm.trans hs)
    exact .inl rfl
  | annotations hs hkind =>
    obtain rfl := Stage.arrived.inj (h.symm.trans hs)
    exact .inr ⟨rfl, hkind ▸ nofun⟩
  | fieldName hs => cases h.symm.trans hs
  | read hs _ _ => cases h.symm.trans hs
  | stepIn hs _ _ => cases h.symm.trans hs
  | advance hs _ => rcases hs with hs | hs <;> cases h.symm.trans hs
  | stepOut hs _ => cases h.symm.trans hs

theorem Due.of_unnamed (hdue : Due c start past ev) (h : stage c start past = .unnamed s) :
    ev = .call .fieldName s := by
  cases hdue with
  | fieldName hs =>
    obtain rfl := Stage.unnamed.inj (h.symm.trans hs)
    rfl
  | look hs => cases h.symm.trans hs
  | annotations hs _ => cases h.symm.trans hs
  | read hs _ _ => cases h.symm.trans hs
  | stepIn hs _ _ => cases h.symm.trans hs
  | advance hs _ => rcases hs with hs | hs <;> cases h.symm.trans hs
  | stepOut hs _ => cases h.symm.trans hs

theorem Due.kind_of_described (hdue : Due c start past ev)
    (h : stage c start past = .described s) : (c.view s).kind? ≠ some .null := by
  cases hdue with
  | read hs hkind _ =>
    obtain rfl := Stage.described.inj (h.symm.trans hs)
    exact hkind ▸ nofun
  | stepIn hs hkind _ =>
    obtain rfl := Stage.described.inj (h.symm.trans hs)
    exact hkind ▸ nofun
  | look hs => cases h.symm.trans hs
  | annotations hs _ => cases h.symm.trans hs
  | fieldName hs => cases h.symm.trans hs
  | advance hs _ => rcases hs with hs | hs <;> cases h.symm.trans hs
  | stepOut hs _ => cases h.symm.trans hs

end

/-- Everything was due when it was asked. -/
inductive Proper (c : Cursor σ ε) (start : σ) : List (Event σ) → Prop where
  | nil : Proper c start []
  | cons {ev : Event σ} {past : List (Event σ)} (h : Proper c start past)
      (hdue : Due c start past ev) : Proper c start (ev :: past)

/-- Why loading fails after a history, and in which state. -/
inductive Fails (c : Cursor σ ε) (start : σ) (limit : Option Nat) (past : List (Event σ)) :
    ReadError ε → σ → Prop where
  | cursor {e : ε} {s : σ} (h : stage c start past = .failed) :
      Fails c start limit past (.cursor e) s
  | noValue {s : σ} (h : stage c start past = .arrived s) (hkind : (c.view s).kind? = none) :
      Fails c start limit past (.fault (.misreport .noValue)) s
  | nullWithValue {s : σ} (h : stage c start past = .described s)
      (hkind : (c.view s).kind? = some .null) :
      Fails c start limit past (.fault (.misreport .nullWithValue)) s
  | tooDeep {s : σ} {n : Nat} {k : ContainerKind} (h : stage c start past = .described s)
      (hlimit : limit = some n) (hkind : (c.view s).kind? = some (.container k)) :
      Fails c start limit past (.fault (.tooDeep n)) s

section
variable {c : Cursor σ ε} {start s u : σ} {q : Call} {past : List (Event σ)}

theorem stage_of_ok {a : q.Answer} (h : c.perform q u = (.ok a, s)) :
    stage c start (.call q u :: past) = Stage.next c past q a s := by
  simp only [stage, h]

theorem stage_of_error {e : ε} (h : c.perform q u = (.error e, s)) :
    stage c start (.call q u :: past) = .failed := by
  simp only [stage, h]

theorem opened_stepIn (h : c.perform .stepIn u = (.ok (), s)) :
    opened c (.call .stepIn u :: past) = u :: opened c past := by
  change c.stepIn u = _ at h
  simp only [opened, h]

theorem opened_stepIn_error {e : ε} (h : c.perform .stepIn u = (.error e, s)) :
    opened c (.call .stepIn u :: past) = opened c past := by
  change c.stepIn u = _ at h
  simp only [opened, h]

theorem Proper.of_append {newer : List (Event σ)} (h : Proper c start (newer ++ past)) :
    Proper c start past := by
  induction newer with
  | nil => exact h
  | cons ev newer ih =>
    cases h with
    | cons h _ => exact ih h

end

/-- A run after a history asks what is due and ends with what satisfies `Q`, or fails for a reason,
or its fuel is spent, but never before the name of a field is asked. -/
def Heeds (c : Cursor σ ε) (start : σ) (limit : Option Nat) (p : Dialogue α) (s : σ)
    (past : List (Event σ)) (Q : α → σ → List (Event σ) → Prop) : Prop :=
  Goes c p s past (fun a s' past' => Proper c start past' ∧ Q a s' past')
    (fun e s' past' => Proper c start past' ∧ Fails c start limit past' e s')
    (fun past' => Proper c start past' ∧ ∀ v, stage c start past' ≠ .unnamed v)

/-- A history has reached a stage inside these containers. -/
structure At (c : Cursor σ ε) (start : σ) (around : List σ) (st : Stage σ)
    (past : List (Event σ)) : Prop where
  stage : stage c start past = st
  opened : opened c past = around

/-- A value that the cursor has arrived at is loaded as a whole, and what is opened is closed. -/
def Loads (c : Cursor σ ε) (start : σ) (limit : Option Nat) (child : Dialogue α) : Prop :=
  ∀ s past around, Proper c start past → At c start around (.arrived s) past →
    Heeds c start limit child s past fun _ s' => At c start around (.completed s')

/-- Before the first child or after a whole one. -/
def Between (c : Cursor σ ε) (start : σ) (around : List σ) (s : σ) (past : List (Event σ)) : Prop :=
  At c start around (.entered s) past ∨ At c start around (.completed s) past

/-- A step of the loop has taken one child as a whole, or found the end. -/
def Stepped (c : Cursor σ ε) (start : σ) (around : List σ) :
    Option α → σ → List (Event σ) → Prop
  | some _ => Between c start around
  | none => fun s => At c start around (.ended s)

def Steps (c : Cursor σ ε) (start : σ) (limit : Option Nat) (around : List σ)
    (step : Dialogue (Option α)) : Prop :=
  ∀ s past, Proper c start past → Between c start around s past →
    Heeds c start limit step s past (Stepped c start around)

section
variable {c : Cursor σ ε} {start s u : σ} {limit : Option Nat} {past : List (Event σ)}

theorem heeds_ask {q : Call} {Q : q.Answer → σ → List (Event σ) → Prop}
    (hpast : Proper c start past) (hdue : Due c start past (.call q s))
    (hQ : ∀ a s', c.perform q s = (.ok a, s') → Q a s' (.call q s :: past)) :
    Heeds c start limit (ask q) s past Q := by
  refine goes_ask ?_ ?_
  · intro a s' hq
    exact ⟨hpast.cons hdue, hQ a s' hq⟩
  · intro e s' hq
    exact ⟨hpast.cons hdue, .cursor (stage_of_error hq)⟩

/-- An advance lands on a child or finds the end. -/
theorem heeds_advance {around : List σ} (hne : around ≠ []) (hpast : Proper c start past)
    (h : Between c start around s past) : Heeds c start limit (ask .advance) s past
      fun o s' => At c start around (Stage.next c past .advance o s') := by
  have hopened : opened c past = around := h.elim At.opened At.opened
  have hdue : Due c start past (.call .advance s) :=
    .advance (h.imp At.stage At.stage) (hopened ▸ hne)
  refine heeds_ask hpast hdue ?_
  intro o s' hq
  exact ⟨stage_of_ok hq, hopened⟩

theorem inStruct_of_between {around : List σ} (h : Between c start (u :: around) s past) :
    inStruct c past = decide ((c.view u).kind? = some (.container .struct)) := by
  have hopened : opened c past = u :: around := h.elim At.opened At.opened
  unfold inStruct
  rw [hopened]
  rfl

theorem steps_item {around : List σ} {child : Dialogue Element}
    (hchild : Loads c start limit child)
    (hkind : (c.view u).kind? ≠ some (.container .struct)) :
    Steps c start limit (u :: around) (item child) := by
  intro s past hpast h
  have hout : inStruct c past = false := (inStruct_of_between h).trans (decide_eq_false hkind)
  refine goes_item (heeds_advance (List.cons_ne_nil _ _) hpast h) ?_ ?_
  · intro s' past' h'
    exact h'
  · rintro kind s' landed ⟨hlanded, h'⟩
    simp only [Stage.next, hout, Bool.false_eq_true, if_false] at h'
    refine (hchild s' landed _ hlanded h').mono ?_
    rintro e s'' past'' ⟨hpast'', h''⟩
    exact ⟨hpast'', .inr h''⟩

theorem steps_field {around : List σ} {child : Dialogue Element}
    (hchild : Loads c start limit child)
    (hkind : (c.view u).kind? = some (.container .struct)) :
    Steps c start limit (u :: around) (field child) := by
  intro s past hpast h
  have hin : inStruct c past = true := (inStruct_of_between h).trans (decide_eq_true hkind)
  refine goes_field (N := fun _ t named =>
    Proper c start named ∧ At c start (u :: around) (.arrived t) named)
    (heeds_advance (List.cons_ne_nil _ _) hpast h) ?_ ?_ ?_
  · intro s' past' h'
    exact h'
  · rintro kind s' landed ⟨hlanded, h'⟩
    simp only [Stage.next, hin, if_true] at h'
    refine heeds_ask (Q := fun _ t => At c start (u :: around) (.arrived t)) hlanded
      (.fieldName h'.stage) ?_
    intro name t hq
    exact ⟨stage_of_ok hq, h'.opened⟩
  · rintro name t named ⟨hnamed, harrived⟩
    refine (hchild t named _ hnamed harrived).mono ?_
    rintro e s'' past'' ⟨hpast'', h''⟩
    exact ⟨hpast'', .inr h''⟩

section
variable {around : List σ} {depth fuel : Nat} (hpast : Proper c start past)
  (h : At c start around (.described s) past) (hnull : (c.view s).isNull = false)
include hpast h hnull

theorem heeds_inside {k : ContainerKind} {step : Dialogue (Option α)}
    (hkind : (c.view s).kind? = some (.container k))
    (hstep : Steps c start limit (s :: around) step) :
    Heeds c start limit (inside limit depth fuel step) s past
      fun _ s' => At c start around (.completed s') := by
  -- The loop is always between two children of this container.
  refine goes_inside
    (I := fun _ t entered => Proper c start entered ∧ Between c start (s :: around) t entered)
    (D := fun _ t ended => Proper c start ended ∧ At c start (s :: around) (.ended t) ended)
    ?_ ?_ ?_ ?_ ?_
  · intro n hn _
    exact ⟨hpast, .tooDeep h.stage hn hkind⟩
  · intro _
    refine heeds_ask (Q := fun _ => Between c start (s :: around)) hpast
      (.stepIn h.stage hkind hnull) ?_
    intro _ t hq
    exact .inl ⟨stage_of_ok hq, (opened_stepIn hq).trans (congrArg (s :: ·) h.opened)⟩
  · rintro _ t entered ⟨hentered, hbetween⟩
    refine (hstep t entered hentered hbetween).mono ?_
    rintro (_ | a) t' past' h <;> exact h
  · rintro _ t entered - ⟨hentered, hbetween⟩
    refine ⟨hentered, ?_⟩
    intro v hv
    rcases hbetween with h | h <;> rw [h.stage] at hv <;> cases hv
  · rintro got t ended ⟨hended, hend⟩
    have hdue : Due c start ended (.call .stepOut t) :=
      .stepOut hend.stage (hend.opened ▸ List.cons_ne_nil _ _)
    refine heeds_ask (Q := fun _ s' => At c start around (.completed s')) hended hdue ?_
    intro _ s' hq
    exact ⟨stage_of_ok hq, congrArg List.tail hend.opened⟩

theorem heeds_value {child : Dialogue Element} {kind : Kind} (hchild : Loads c start limit child)
    (hkind : (c.view s).kind? = some kind) :
    Heeds c start limit (value limit depth fuel child kind) s past
      fun _ s' => At c start around (.completed s') := by
  have hitems : ∀ k : ContainerKind, k ≠ .struct → kind = .container k →
      Heeds c start limit (inside limit depth fuel (item child)) s past
        fun _ s' => At c start around (.completed s') := by
    rintro k hk rfl
    have hout : (c.view s).kind? ≠ some (.container .struct) := by
      rw [hkind]
      rintro ⟨⟩
      exact hk rfl
    exact heeds_inside hpast h hnull hkind (steps_item hchild hout)
  refine goes_value ?_ ?_ ?_ (hitems .list nofun) (hitems .sexp nofun)
  · rintro rfl
    exact ⟨hpast, .nullWithValue h.stage hkind⟩
  · rintro k rfl
    refine heeds_ask (Q := fun _ s' => At c start around (.completed s')) hpast
      (.read h.stage hkind hnull) ?_
    intro _ s' hq
    exact ⟨stage_of_ok hq, h.opened⟩
  · rintro rfl
    exact heeds_inside hpast h hnull hkind (steps_field hchild hkind)

end

theorem loads_element (c : Cursor σ ε) (start : σ) (limit : Option Nat) (fuel depth : Nat) :
    Loads c start limit (element limit fuel depth) := by
  induction fuel generalizing depth with
  | zero =>
    intro s past around hpast h
    refine goes_unfinished ⟨hpast, ?_⟩
    intro v hv
    rw [h.stage] at hv
    cases hv
  | succ fuel ih =>
    intro s past around hpast h
    have hseen : Proper c start (.look s :: past) := hpast.cons (.look h.stage)
    rw [element_succ]
    refine goes_node (T := fun names t told => Proper c start told ∧ t = s ∧
      At c start around (Stage.next c (.look s :: past) .annotations names s) told) ?_ ?_ ?_ ?_
    · intro hkind
      exact ⟨hseen, .noValue h.stage hkind⟩
    · intro kind hkind
      refine heeds_ask (Q := fun names t told => t = s ∧
        At c start around (Stage.next c (.look s :: past) .annotations names s) told)
        hseen (.annotations h.stage hkind) ?_
      intro names t hq
      have ht : t = s := (congrArg Prod.snd hq).symm
      rw [ht] at hq
      exact ⟨ht, stage_of_ok hq, h.opened⟩
    · rintro kind names t told hkind hnull ⟨htold, ht, h'⟩
      simp only [Stage.next, hnull, if_true] at h'
      rw [ht]
      exact ⟨htold, h'⟩
    · rintro kind names t told hkind hnull ⟨htold, ht, h'⟩
      simp only [Stage.next, hnull, Bool.false_eq_true, if_false] at h'
      rw [ht]
      exact heeds_value htold h' hnull (ih _) hkind

theorem heeds_load (c : Cursor σ ε) (start : σ) (limit : Option Nat) (fuel : Nat) :
    Heeds c start limit (load limit fuel) start [] fun _ s' => At c start [] (.completed s') := by
  have hseen : Proper c start [.look start] := .cons .nil (.look rfl)
  exact goes_load (loads_element c start limit fuel _ start _ [] hseen ⟨rfl, rfl⟩)

/-- The history of a whole run. -/
def history (c : Cursor σ ε) (limit : Option Nat) (fuel : Nat) (start : σ) : List (Event σ) :=
  ((load limit fuel).trace c start).reverse

theorem at_of_load {fuel : Nat} {e : Element} (h : (load limit fuel).run c start = (.ok e, s)) :
    At c start [] (.completed s) (history c limit fuel start) := by
  have hload := heeds_load c start limit fuel
  simp only [Heeds, Goes, h, List.append_nil] at hload
  exact hload.2

theorem fails_of_load {fuel : Nat} {e : ReadError ε}
    (h : (load limit fuel).run c start = (.error e, s)) :
    Fails c start limit (history c limit fuel start) e s := by
  have hload := heeds_load c start limit fuel
  simp only [Heeds, Goes, h, List.append_nil] at hload
  exact hload.2

theorem proper_history (c : Cursor σ ε) (limit : Option Nat) (fuel : Nat) (start : σ) :
    Proper c start (history c limit fuel start) := by
  have hload := heeds_load c start limit fuel
  unfold Heeds Goes at hload
  rw [List.append_nil] at hload
  split at hload <;> exact hload.1

theorem Fails.stage_ne_unnamed {e : ReadError ε} (h : Fails c start limit past e s) (v : σ) :
    stage c start past ≠ .unnamed v := by
  intro hv
  cases h with
  | cursor hs => cases hs.symm.trans hv
  | noValue hs _ => cases hs.symm.trans hv
  | nullWithValue hs _ => cases hs.symm.trans hv
  | tooDeep hs _ _ => cases hs.symm.trans hv

/-- No run is over before the name of a field that was landed on is asked. -/
theorem stage_history_ne_unnamed (c : Cursor σ ε) (limit : Option Nat) (fuel : Nat) (start v : σ) :
    stage c start (history c limit fuel start) ≠ .unnamed v := by
  rcases h : (load limit fuel).run c start with ⟨a | e | _, s⟩
  · intro hv
    cases (at_of_load h).stage.symm.trans hv
  · exact (fails_of_load h).stage_ne_unnamed v
  · have hload := heeds_load c start limit fuel
    simp only [Heeds, Goes, h, List.append_nil] at hload
    exact hload.2 v

end

end IonDocument.Loading
