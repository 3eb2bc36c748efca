import IonDocument.Proofs.Reader.Finality

/-! # Looking ahead

A request that looks ahead and succeeds changes nothing that is handed out later. The element that
it found is held until it is taken, and the next request that takes something answers, and leaves
the reader, as if nobody had looked. This holds over any cursor. A look that fails is the failure
that taking would have been.
-/
namespace IonDocument
variable {σ ε S : Type}

/-- Whether a request only looks at what comes next. -/
def Request.looks : Request → Bool
  | .hasNext | .peek => true
  | .next | .next? | .remove => false

/-- The replies to a session, each with the state after it. -/
def course (m : Machine ε S) : List Request → S → List (Reply ε × S)
  | [], _ => []
  | q :: requests, s => (⟨q, (m q s).1⟩, (m q s).2) :: course m requests (m q s).2

theorem Request.ne_remove_of_takes {q : Request} (h : q.takes = true) : q ≠ .remove := by
  rintro rfl
  cases h

theorem Request.ne_remove_of_looks {q : Request} (h : q.looks = true) : q ≠ .remove := by
  rintro rfl
  cases h

theorem Request.takes_of_looks {q : Request} (h : q.looks = true) : q.takes = false := by
  cases q with
  | hasNext => rfl
  | peek => rfl
  | next => cases h
  | next? => cases h
  | remove => rfl

theorem Request.looks_of_not_takes {q : Request} (h : q.takes = false) (hq : q ≠ .remove) :
    q.looks = true := by
  cases q with
  | hasNext => rfl
  | peek => rfl
  | next => cases h
  | next? => cases h
  | remove => exact absurd rfl hq

namespace Reader
variable {c : Cursor σ ε} {fuel : Nat} {r u : Reader σ} {q : Request}

/-- The second reader is the first one, or what became of it when it looked ahead. -/
inductive Ahead (c : Cursor σ ε) (fuel : Nat) (r : Reader σ) : Reader σ → Prop where
  | same : Ahead c fuel r r
  | held {r' : Reader σ} {e : Element} (hb : r.buffer = .empty)
      (h : r.pull c fuel = (.ok (some e), r')) : Ahead c fuel r { r' with buffer := .holding e }
  | ended {r' : Reader σ} (hb : r.buffer = .empty) (h : r.pull c fuel = (.ok none, r')) :
    Ahead c fuel r r'

theorem buffer_of_pull_some {r' : Reader σ} {e : Element} (hb : r.buffer = .empty)
    (h : r.pull c fuel = (.ok (some e), r')) : r'.buffer = .empty := by
  have hbuffer := buffer_pull c fuel r
  rw [h] at hbuffer
  exact hbuffer.trans hb

theorem buffer_of_pull_none {r' : Reader σ} (h : r.pull c fuel = (.ok none, r')) :
    r'.buffer = .ended := by
  have hbuffer := buffer_pull c fuel r
  rw [h] at hbuffer
  exact hbuffer

/-- Taking what comes next does not tell whether somebody has looked at it before. -/
theorem Ahead.respond_takes (h : Ahead c fuel r u) (hq : q.takes = true) :
    respond c fuel q u = respond c fuel q r := by
  have hne := Request.ne_remove_of_takes hq
  cases h with
  | same => rfl
  | held hb hpull =>
    rw [respond_of_holding hne rfl, respond_of_empty hne hb, hpull]
    simp only [reply, hq, if_true, ← buffer_of_pull_some hb hpull]
  | ended hb hpull =>
    rw [respond_of_ended q (buffer_of_pull_none hpull), respond_of_empty hne hb, hpull]
    rfl

/-- A look that succeeds leads no further ahead than one look. -/
theorem Ahead.respond_looks (h : Ahead c fuel r u) (hq : q.looks = true) {a : q.Answer}
    (hok : (respond c fuel q u).1 = .ok a) : Ahead c fuel r (respond c fuel q u).2 := by
  have hne := Request.ne_remove_of_looks hq
  have htakes := Request.takes_of_looks hq
  cases h with
  | held hb hpull =>
    rw [respond_of_holding hne rfl, htakes]
    exact .held hb hpull
  | ended hb hpull =>
    rw [respond_of_ended q (buffer_of_pull_none hpull)]
    exact .ended hb hpull
  | same =>
    cases hb : r.buffer with
    | ended =>
      rw [respond_of_ended q hb]
      exact .same
    | holding e =>
      rw [respond_of_holding hne hb, htakes]
      exact .same
    | empty =>
      rw [respond_of_empty hne hb] at hok ⊢
      rcases hpull : r.pull c fuel with ⟨(_ | e) | e | _, r'⟩
      · exact .ended hb hpull
      · simp only [reply, htakes]
        exact .held hb hpull
      · rw [hpull] at hok
        cases hok
      · rw [hpull] at hok
        cases hok

/-- What looks and succeeds can be left out, and so can what is not supported. -/
theorem Ahead.course_filter (h : Ahead c fuel r u) (requests : List Request)
    (hlooks : ∀ step ∈ course (respond c fuel) requests u, step.1.1.looks = true →
      ∃ a, step.1.2 = .ok a) :
    (course (respond c fuel) requests u).filter (fun step => step.1.1.takes) =
      course (respond c fuel) (requests.filter Request.takes) r := by
  induction requests generalizing r u with
  | nil => rfl
  | cons q requests ih =>
    rw [course, List.forall_mem_cons] at hlooks
    obtain ⟨hlook, hrest⟩ := hlooks
    cases htakes : q.takes with
    | true =>
      have hsame := h.respond_takes htakes
      rw [hsame] at hrest
      simp only [course, List.filter_cons, htakes, if_true, hsame, ih .same hrest]
    | false =>
      have hahead : Ahead c fuel r (respond c fuel q u).2 := by
        by_cases hq : q = .remove
        · rw [hq]
          exact h
        · have hlooks := Request.looks_of_not_takes htakes hq
          obtain ⟨a, ha⟩ := hlook hlooks
          exact h.respond_looks hlooks ha
      simp only [course, List.filter_cons, htakes, Bool.false_eq_true, if_false]
      exact ih hahead hrest

/-- With an element held, looks only show it, over whatever cursor. -/
theorem serve_looks (c : Cursor σ ε) (fuel : Nat) {e : Element} (hb : r.buffer = .holding e)
    {looks : List Request} (hlooks : ∀ q ∈ looks, q.looks = true) :
    serve (respond c fuel) looks r = (looks.map fun q => ⟨q, q.answer (some e)⟩, r) := by
  induction looks with
  | nil => rfl
  | cons q looks ih =>
    obtain ⟨hq, hrest⟩ := List.forall_mem_cons.mp hlooks
    rw [serve_cons, respond_of_holding (Request.ne_remove_of_looks hq) hb,
      Request.takes_of_looks hq]
    simp only [Bool.false_eq_true, if_false, ih hrest, List.map_cons]

theorem log_looks {e : Element} (hb : r.buffer = .holding e) {looks : List Request}
    (hlooks : ∀ q ∈ looks, q.looks = true) : log c fuel looks r = [] := by
  induction looks with
  | nil => rfl
  | cons q looks ih =>
    obtain ⟨hq, hrest⟩ := List.forall_mem_cons.mp hlooks
    rw [log, deeds_of_ne_empty (by simp [hb]), respond_of_holding (Request.ne_remove_of_looks hq) hb,
      Request.takes_of_looks hq]
    exact ih hrest

/-- What a look finds is held, or the end is. -/
theorem buffer_of_hasNext {b : Bool} (h : (r.hasNext c fuel).1 = .ok b) :
    if b then ∃ e, (r.hasNext c fuel).2.buffer = .holding e
    else (r.hasNext c fuel).2.buffer = .ended := by
  change (respond c fuel .hasNext r).1 = .ok b at h
  change if b then ∃ e, (respond c fuel .hasNext r).2.buffer = .holding e
    else (respond c fuel .hasNext r).2.buffer = .ended
  cases hb : r.buffer with
  | ended =>
    rw [respond_of_ended _ hb] at h ⊢
    cases h
    exact hb
  | holding e =>
    rw [respond_of_holding (q := .hasNext) nofun hb] at h ⊢
    cases h
    exact ⟨e, hb⟩
  | empty =>
    rw [respond_of_empty (q := .hasNext) nofun hb] at h ⊢
    rcases hpull : r.pull c fuel with ⟨(_ | e) | e | _, r'⟩ <;> rw [hpull] at h
    · cases h
      exact buffer_of_pull_none hpull
    · cases h
      exact ⟨e, rfl⟩
    · cases h
    · cases h

/-- Every request that has to look fails alike. -/
theorem respond_of_hasNext_error {e : ReadError ε} (h : (r.hasNext c fuel).1 = .error e)
    (hq : q ≠ .remove) : respond c fuel q r = (.error e, (r.hasNext c fuel).2) := by
  change (respond c fuel .hasNext r).1 = .error e at h
  change _ = (_, (respond c fuel .hasNext r).2)
  cases hb : r.buffer with
  | ended =>
    rw [respond_of_ended _ hb] at h
    cases h
  | holding e =>
    rw [respond_of_holding (q := .hasNext) nofun hb] at h
    cases h
  | empty =>
    rw [respond_of_empty (q := .hasNext) nofun hb] at h
    rw [respond_of_empty (q := .hasNext) nofun hb, respond_of_empty hq hb]
    rcases hpull : r.pull c fuel with ⟨(_ | e) | e | _, r'⟩ <;> rw [hpull] at h <;> cases h
    rfl

/-- Over any cursor and in any state, a look that finds an element does not change what taking it
answers and leaves behind, and until then every look finds the same with no look or call at the
cursor; a look that finds the end agrees with taking, and so does one that fails. Hence looks that
succeed, and what is not supported, can be put into any session or left out of it, with no effect on
what the others answer and leave behind. -/
theorem looking_ahead_is_transparent (c : Cursor σ ε) (fuel : Nat) (r : Reader σ) :
    let r' := (r.hasNext c fuel).2
    ((r.hasNext c fuel).1 = .ok true → ∃ e, (r.next c fuel).1 = .ok e ∧
        r'.next c fuel = r.next c fuel ∧
        ∀ looks : List Request, (∀ q ∈ looks, q.looks = true) → log c fuel looks r' = [] ∧
          ∀ (c' : Cursor σ ε) (fuel' : Nat),
            serve (respond c' fuel') looks r' = (looks.map fun q => ⟨q, q.answer (some e)⟩, r')) ∧
      ((r.hasNext c fuel).1 = .ok false →
        r.next c fuel = (.error .exhausted, r') ∧ r'.next c fuel = (.error .exhausted, r')) ∧
      (∀ e, (r.hasNext c fuel).1 = .error e →
        r.next c fuel = (.error e, r') ∧ r.peek c fuel = (.error e, r')) ∧
      ∀ requests : List Request,
        (∀ step ∈ course (respond c fuel) requests r, step.1.1.looks = true →
          ∃ a, step.1.2 = .ok a) →
        (course (respond c fuel) requests r).filter (fun step => step.1.1.takes) =
          course (respond c fuel) (requests.filter Request.takes) r := by
  intro r'
  have hahead : ∀ b, (r.hasNext c fuel).1 = .ok b → r'.next c fuel = r.next c fuel := by
    intro b hb
    have h : Ahead c fuel r r' := Ahead.same.respond_looks (q := .hasNext) rfl hb
    exact h.respond_takes (q := .next) rfl
  refine ⟨?_, ?_, ?_, ?_⟩
  · intro htrue
    obtain ⟨e, he⟩ : ∃ e, r'.buffer = .holding e := buffer_of_hasNext htrue
    have hnext : (respond c fuel .next r').1 = .ok e := by
      rw [respond_of_holding (q := .next) nofun he]
      rfl
    refine ⟨e, ?_, hahead true htrue, ?_⟩
    · rw [← hahead true htrue]
      exact hnext
    · intro looks hlooks
      exact ⟨log_looks he hlooks, fun c' fuel' => serve_looks c' fuel' he hlooks⟩
  · intro hfalse
    have hended : r'.buffer = .ended := buffer_of_hasNext hfalse
    have hnext : r'.next c fuel = (.error .exhausted, r') := respond_of_ended .next hended
    exact ⟨(hahead false hfalse).symm.trans hnext, hnext⟩
  · intro e he
    exact ⟨respond_of_hasNext_error (q := .next) he nofun,
      respond_of_hasNext_error (q := .peek) he nofun⟩
  · intro requests hlooks
    exact Ahead.same.course_filter requests hlooks

/-- The empty list in front is too deep, for a look as well as for taking it. Once it is reported, a
look finds the number behind it. -/
theorem looking_ahead_past_empty_list :
    let one := Element.ofScalar .int 1
    let r := start Walk.cursor (some 0) (Walk.start [.ofValue (.list []), one] .system)
    let passed := (r.next Walk.cursor 3).2
    let deep : ReadError WalkError := .fault (.tooDeep 0)
    let steps := course (respond Walk.cursor 3) [.next, .remove, .peek, .next?] r
    (r.hasNext Walk.cursor 3).1 = .error deep ∧
      r.next Walk.cursor 3 = (.error deep, (r.hasNext Walk.cursor 3).2) ∧
      (passed.hasNext Walk.cursor 3).1 = .ok true ∧
      (passed.hasNext Walk.cursor 3).2.next Walk.cursor 3 = passed.next Walk.cursor 3 ∧
      (∀ step ∈ steps, step.1.1.looks = true → ∃ a, step.1.2 = .ok a) ∧
      steps.filter (fun step => step.1.1.takes) =
        course (respond Walk.cursor 3) [.next, .next?] r := by
  intro one r passed deep steps
  have hlooks : ∀ step ∈ steps, step.1.1.looks = true → ∃ a, step.1.2 = .ok a := by
    simp only [steps, course, List.forall_mem_cons]
    exact ⟨nofun, nofun, fun _ => ⟨some one, rfl⟩, nofun, List.forall_mem_nil _⟩
  obtain ⟨-, -, herror, hsession⟩ := looking_ahead_is_transparent Walk.cursor 3 r
  obtain ⟨hfound, -, -, -⟩ := looking_ahead_is_transparent Walk.cursor 3 passed
  have hdeep : (r.hasNext Walk.cursor 3).1 = .error deep := rfl
  have htrue : (passed.hasNext Walk.cursor 3).1 = .ok true := rfl
  obtain ⟨e, -, hnext, -⟩ := hfound htrue
  exact ⟨hdeep, (herror deep hdeep).1, htrue, hnext, hlooks,
    hsession [.next, .remove, .peek, .next?] hlooks⟩

end Reader
end IonDocument
