import IonDocument.Proofs.Dialogue.Trace
import IonDocument.Proofs.Reader.Limited

/-! # The end and stranding are final

A reader says that a level is at its end only after an advance of its own has found the end, at the
depth where the reader was started. From then on it says so for ever and leaves the cursor alone.
A cursor that stands at another depth makes every request fail and is never moved again. This holds
over any cursor, also one that fails or contradicts itself.
-/
namespace IonDocument
open Dialogue
variable {α σ ε : Type}

/-- A look or a call in a session: the reader's own, or one made to load an element. -/
inductive Deed (σ : Type) where
  | own (ev : Event σ)
  | loading (ev : Event σ)

def Deed.event : Deed σ → Event σ
  | .own ev => ev
  | .loading ev => ev

/-- An advance of the reader itself at depth `d` found the end. -/
def SawEnd (c : Cursor σ ε) (d : Nat) (deeds : List (Deed σ)) : Prop :=
  ∃ s, .own (.call .advance s) ∈ deeds ∧ (c.view s).depth = d ∧ (c.advance s).1 = .ok none

/-- What a request answers that fails, unless it is never supported. -/
def Request.refusal (f : Fault) : (q : Request) → Outcome ε q.Answer
  | .remove => .error (.unsupported "remove")
  | _ => .error (.fault f)

/-- No dialogue with a cursor says that nothing is left. -/
theorem Dialogue.run_ne_exhausted (c : Cursor σ ε) (p : Dialogue α) (s s' : σ) :
    p.run c s ≠ (.error .exhausted, s') := by
  intro h
  induction p generalizing s with
  | done a => cases h
  | fail f => cases h
  | unfinished => cases h
  | look next ih => exact ih _ s h
  | call q next ih =>
    simp only [run] at h
    rcases hc : c.perform q s with ⟨e | a, t⟩
    · rw [hc] at h
      cases h
    · rw [hc] at h
      exact ih a t h

theorem Request.answer_some_ne {q : Request} (hq : q ≠ .remove) (e : Element) :
    q.answer (ε := ε) (some e) ≠ q.answer none := by
  cases q with
  | remove => exact absurd rfl hq
  | hasNext => nofun
  | peek => nofun
  | next => nofun
  | next? => nofun

namespace Reader

section
variable (c : Cursor σ ε) (fuel : Nat)

/-- What a pull does. -/
def pullDeeds (r : Reader σ) : List (Deed σ) :=
  .own (.look r.state) ::
    if (c.view r.state).depth = r.depth then
      .own (.call .advance r.state) ::
        match c.advance r.state with
        | (.ok (some _), s) => ((load r.limit fuel).trace c s).map .loading
        | _ => []
    else []

def deeds (q : Request) (r : Reader σ) : List (Deed σ) :=
  match q, r.buffer with
  | .remove, _ => []
  | _, .empty => pullDeeds c fuel r
  | _, _ => []

/-- What is done in a whole session. -/
def log : List Request → Reader σ → List (Deed σ)
  | [], _ => []
  | q :: requests, r => deeds c fuel q r ++ log requests (respond c fuel q r).2

/-- The reply to a request that had to pull. -/
def reply (q : Request) : Outcome ε (Option Element) × Reader σ → Outcome ε q.Answer × Reader σ
  | (.ok (some e), r) =>
    (q.answer (some e), if q.takes then r else { r with buffer := .holding e })
  | (.ok none, r) => (q.answer none, r)
  | (.error e, r) => (.error e, r)
  | (.unfinished, r) => (.unfinished, r)

end

section
variable {c : Cursor σ ε} {fuel : Nat} {r : Reader σ} {q : Request}

/-- At the reader's depth the cursor is advanced, and what it lands on is loaded. -/
theorem run_pullAt_of_depth (limit : Option Nat) {depth : Nat} {s : σ}
    (h : (c.view s).depth = depth) : (pullAt limit fuel depth).run c s =
      Outcome.andThen ((ask .advance).run c s) fun
        | none, s' => (.ok none, s')
        | some _, s' =>
          (((load limit fuel).run c s').1.map some, ((load limit fuel).run c s').2) := by
  simp only [pullAt, run_bind, run_observe, Outcome.andThen_ok, if_pos h]
  congr 1
  funext o s'
  cases o with
  | none => rfl
  | some k =>
    simp only [run_bind]
    rcases (load limit fuel).run c s' with ⟨e | e | _, s''⟩ <;> rfl

/-- These are the looks and the calls of a pull. -/
theorem event_pullDeeds :
    (pullDeeds c fuel r).map Deed.event = (pullAt r.limit fuel r.depth).trace c r.state := by
  unfold pullDeeds pullAt
  rw [trace_observe_bind, List.map_cons]
  by_cases h : (c.view r.state).depth = r.depth
  · simp only [if_pos h]
    rw [trace_ask_bind, List.map_cons]
    have hperform : c.perform .advance r.state = c.advance r.state := rfl
    rw [hperform]
    rcases c.advance r.state with ⟨e | _ | k, s⟩
    · rfl
    · rfl
    · simp [trace_map, Function.comp_def, Deed.event]
  · simp only [if_neg h]
    rfl

theorem pull_of_depth (h : (c.view r.state).depth = r.depth) : r.pull c fuel =
    match c.advance r.state with
    | (.error e, s) => (.error (.cursor e), { r with state := s })
    | (.ok none, s) => (.ok none, { r with state := s, buffer := .ended })
    | (.ok (some _), s) =>
      (((load r.limit fuel).run c s).1.map some,
        { r with state := ((load r.limit fuel).run c s).2 }) := by
  unfold pull
  rw [run_pullAt_of_depth r.limit h]
  rcases hadvance : c.advance r.state with ⟨e | _ | k, s⟩
  · rw [run_ask_error (q := .advance) hadvance]
    rfl
  · rw [run_ask_ok (q := .advance) hadvance]
    rfl
  · rw [run_ask_ok (q := .advance) hadvance]
    simp only [Outcome.andThen_ok]
    rcases (load r.limit fuel).run c s with ⟨e | e | _, s'⟩ <;> rfl

theorem respond_of_ended (q : Request) (hb : r.buffer = .ended) :
    respond c fuel q r = (q.answer none, r) := by
  cases q <;> simp [respond, hasNext, peek, next, next?, remove, hb, Request.answer, Buffer.element?]

theorem respond_of_holding {e : Element} (hq : q ≠ .remove) (hb : r.buffer = .holding e) :
    respond c fuel q r =
      (q.answer (some e), if q.takes then { r with buffer := .empty } else r) := by
  cases q with
  | remove => exact absurd rfl hq
  | _ => simp [respond, hasNext, peek, next, next?, hb, Request.answer, Request.takes,
      Buffer.element?, Outcome.map]

/-- Only a pull that finds the end changes what is held. -/
theorem buffer_pull (c : Cursor σ ε) (fuel : Nat) (r : Reader σ) : (r.pull c fuel).2.buffer =
    match (r.pull c fuel).1 with
    | .ok none => .ended
    | _ => r.buffer := by
  unfold pull
  rcases (pullAt r.limit fuel r.depth).run c r.state with ⟨(_ | e) | e | _, s⟩ <;> rfl

theorem pull_ne_exhausted (c : Cursor σ ε) (fuel : Nat) (r : Reader σ) :
    (r.pull c fuel).1 ≠ .error .exhausted := by
  have hne := run_ne_exhausted c (pullAt r.limit fuel r.depth) r.state
  unfold pull
  rcases hrun : (pullAt r.limit fuel r.depth).run c r.state with ⟨(_ | e) | e | _, s⟩
  · nofun
  · nofun
  · intro h
    obtain rfl : e = .exhausted := Outcome.error.inj h
    exact hne s hrun
  · nofun

theorem respond_of_empty (hq : q ≠ .remove) (hb : r.buffer = .empty) :
    respond c fuel q r = reply q (r.pull c fuel) := by
  have hbuffer := buffer_pull c fuel r
  have hne := pull_ne_exhausted c fuel r
  cases q with
  | remove => exact absurd rfl hq
  | hasNext =>
    simp only [respond, hasNext, hb]
    rcases r.pull c fuel with ⟨(_ | e) | e | _, r'⟩ <;> rfl
  | next =>
    simp only [respond, next, hb]
    rcases r.pull c fuel with ⟨(_ | e) | e | _, r'⟩ <;> rfl
  | peek =>
    simp only [respond, peek, hasNext, hb]
    rcases hp : r.pull c fuel with ⟨(_ | e) | e | _, r'⟩
    · rw [hp] at hbuffer
      have hended : r'.buffer = .ended := hbuffer
      simp [reply, Request.answer, hended, Buffer.element?]
    · rfl
    · rfl
    · rfl
  | next? =>
    simp only [respond, next?, next, hb]
    rcases hp : r.pull c fuel with ⟨(_ | e) | e | _, r'⟩
    · rfl
    · rfl
    · rw [hp] at hne
      cases e with
      | exhausted => exact absurd rfl hne
      | _ => rfl
    · rfl

theorem own_advance_mem_pullDeeds {s : σ} : .own (.call .advance s) ∈ pullDeeds c fuel r ↔
    s = r.state ∧ (c.view r.state).depth = r.depth := by
  unfold pullDeeds
  by_cases h : (c.view r.state).depth = r.depth
  · simp only [if_pos h]
    rcases c.advance r.state with ⟨e | _ | k, s'⟩ <;> simp [h]
  · simp [h]

theorem own_advance_mem_deeds {s : σ} (h : .own (.call .advance s) ∈ deeds c fuel q r) :
    r.buffer = .empty ∧ s = r.state ∧ (c.view r.state).depth = r.depth := by
  unfold deeds at h
  split at h
  · cases h
  · rename_i hb
    exact ⟨hb, own_advance_mem_pullDeeds.mp h⟩
  · cases h

theorem deeds_of_empty (hq : q ≠ .remove) (hb : r.buffer = .empty) :
    deeds c fuel q r = pullDeeds c fuel r := by
  cases q with
  | remove => exact absurd rfl hq
  | _ => simp [deeds, hb]

/-- With something held, or at the end, the cursor is left alone. -/
theorem deeds_of_ne_empty (hb : r.buffer ≠ .empty) : deeds c fuel q r = [] := by
  cases q with
  | remove => rfl
  | _ => simp [deeds]

theorem sawEnd_append {d : Nat} {t t' : List (Deed σ)} :
    SawEnd c d (t ++ t') ↔ SawEnd c d t ∨ SawEnd c d t' := by
  simp only [SawEnd, List.mem_append, or_and_right, exists_or]

/-- A pull finds the end if and only if its own advance does, at the reader's depth. -/
theorem pull_eq_none_iff :
    (r.pull c fuel).1 = .ok none ↔ SawEnd c r.depth (pullDeeds c fuel r) := by
  simp only [SawEnd, own_advance_mem_pullDeeds]
  by_cases h : (c.view r.state).depth = r.depth
  · rw [pull_of_depth h]
    rcases hadvance : c.advance r.state with ⟨e | _ | k, s⟩
    · simp [h, hadvance]
    · simp [h, hadvance]
    · have hload : ((load r.limit fuel).run c s).1.map some ≠ .ok none := by
        cases ((load r.limit fuel).run c s).1 <;> nofun
      simp [h, hadvance, hload]
  · simp [pull_of_stranded h, h]

theorem ended_reply_iff (q : Request) (hb : r.buffer = .empty) :
    (reply q (r.pull c fuel)).2.buffer = .ended ↔ (r.pull c fuel).1 = .ok none := by
  have hbuffer := buffer_pull c fuel r
  generalize r.pull c fuel = pulled at hbuffer ⊢
  rcases pulled with ⟨(_ | e) | e | _, r'⟩
  · simpa [reply] using hbuffer
  · have hb' : r'.buffer = .empty := hbuffer.trans hb
    cases q <;> simp [reply, Request.takes, hb']
  · have hb' : r'.buffer = .empty := hbuffer.trans hb
    simp [reply, hb']
  · have hb' : r'.buffer = .empty := hbuffer.trans hb
    simp [reply, hb']

/-- The reader comes to the end by an advance of its own that finds it, and never leaves it. -/
theorem ended_respond_iff (q : Request) : (respond c fuel q r).2.buffer = .ended ↔
    r.buffer = .ended ∨ SawEnd c r.depth (deeds c fuel q r) := by
  have hnone : ∀ d, ¬ SawEnd c d [] := by
    rintro d ⟨s, hs, -⟩
    cases hs
  by_cases hq : q = .remove
  · subst hq
    simp [respond, remove, deeds, hnone]
  · cases hb : r.buffer with
    | ended => simp [respond_of_ended q hb, hb]
    | holding e =>
      rw [respond_of_holding hq hb, deeds_of_ne_empty (by simp [hb])]
      cases q.takes <;> simp [hb, hnone]
    | empty =>
      rw [respond_of_empty hq hb, deeds_of_empty hq hb, ended_reply_iff q hb, pull_eq_none_iff]
      simp

theorem ended_of_answer (hq : q ≠ .remove) (h : (respond c fuel q r).1 = q.answer none) :
    (respond c fuel q r).2.buffer = .ended := by
  cases hb : r.buffer with
  | ended =>
    rw [respond_of_ended q hb]
    exact hb
  | holding e =>
    rw [respond_of_holding hq hb] at h
    exact absurd h (Request.answer_some_ne hq e)
  | empty =>
    have hne := pull_ne_exhausted c fuel r
    rw [respond_of_empty hq hb] at h ⊢
    rw [ended_reply_iff q hb]
    generalize r.pull c fuel = pulled at h hne ⊢
    rcases pulled with ⟨(_ | e) | e | _, r'⟩
    · rfl
    · exact absurd h (Request.answer_some_ne hq e)
    · cases q with
      | remove => exact absurd rfl hq
      | next =>
        obtain rfl : e = .exhausted := by simpa [reply, Request.answer] using h
        exact absurd rfl hne
      | _ => cases h
    · cases q <;> cases h

theorem depth_respond (q : Request) : (respond c fuel q r).2.depth = r.depth := by
  by_cases hq : q = .remove
  · rw [hq]
    rfl
  · cases hb : r.buffer with
    | ended => rw [respond_of_ended q hb]
    | holding e =>
      rw [respond_of_holding hq hb]
      cases q.takes <;> rfl
    | empty =>
      have hdepth := depth_pull c fuel r
      rw [respond_of_empty hq hb]
      generalize r.pull c fuel = pulled at hdepth ⊢
      rcases pulled with ⟨(_ | e) | e | _, r'⟩ <;> cases q <;> exact hdepth

end

/-- After what was done so far, a reader of depth `d` holds the end if and only if it saw it. -/
structure Remembers (c : Cursor σ ε) (d : Nat) (past : List (Deed σ)) (r : Reader σ) : Prop where
  depth : r.depth = d
  ended : r.buffer = .ended ↔ SawEnd c d past

section
variable {c : Cursor σ ε} {fuel d : Nat} {r : Reader σ} {past : List (Deed σ)}

theorem Remembers.respond (h : Remembers c d past r) (q : Request) :
    Remembers c d (past ++ deeds c fuel q r) (respond c fuel q r).2 := by
  constructor
  · rw [depth_respond, h.depth]
  · rw [ended_respond_iff, h.ended, h.depth, sawEnd_append]

theorem Remembers.serve (h : Remembers c d past r) (requests : List Request) :
    Remembers c d (past ++ log c fuel requests r)
      (serve (Reader.respond c fuel) requests r).2 := by
  induction requests generalizing past r with
  | nil => simpa [log, IonDocument.serve] using h
  | cons q requests ih =>
    rw [serve_cons, log, ← List.append_assoc]
    exact ih (h.respond q)

theorem remembers_start (c : Cursor σ ε) (limit : Option Nat) (s : σ) :
    Remembers c (c.view s).depth [] (start c limit s) where
  depth := rfl
  ended := ⟨nofun, fun ⟨_, hs, _⟩ => nomatch hs⟩

/-- At the end every request is answered alike, over any cursor. -/
theorem serve_of_ended (c : Cursor σ ε) (fuel : Nat) (hb : r.buffer = .ended)
    (requests : List Request) : serve (respond c fuel) requests r =
      (requests.map fun q => ⟨q, q.answer none⟩, r) := by
  induction requests with
  | nil => rfl
  | cons q requests ih => rw [serve_cons, respond_of_ended q hb, ih, List.map_cons]

theorem log_of_ended (hb : r.buffer = .ended) (requests : List Request) :
    log c fuel requests r = [] := by
  induction requests with
  | nil => rfl
  | cons q requests ih =>
    rw [log, respond_of_ended q hb, deeds_of_ne_empty (by simp [hb]), ih, List.append_nil]

section
variable (hb : r.buffer = .empty) (hd : (c.view r.state).depth ≠ r.depth)
include hb hd

theorem respond_of_stranded (q : Request) : respond c fuel q r =
    (q.refusal (.stranded (c.view r.state).depth r.depth), r) := by
  by_cases hq : q = .remove
  · rw [hq]
    rfl
  · rw [respond_of_empty hq hb, pull_of_stranded hd]
    cases q with
    | remove => exact absurd rfl hq
    | _ => rfl

theorem serve_of_stranded (requests : List Request) : serve (respond c fuel) requests r =
    (requests.map fun q => ⟨q, q.refusal (.stranded (c.view r.state).depth r.depth)⟩, r) := by
  induction requests with
  | nil => rfl
  | cons q requests ih =>
    rw [serve_cons, respond_of_stranded hb hd q, ih, List.map_cons]

/-- The reader then only looks at its cursor. -/
theorem log_of_stranded (requests : List Request) :
    ∀ deed ∈ log c fuel requests r, deed = .own (.look r.state) := by
  induction requests with
  | nil => nofun
  | cons q requests ih =>
    rw [log, respond_of_stranded hb hd q, List.forall_mem_append]
    refine ⟨?_, ih⟩
    cases q <;> simp [deeds, pullDeeds, hb, hd]

end

/-- A request depends on its cursor only by what it does with it. -/
theorem respond_of_agrees {q : Request} {c' : Cursor σ ε}
    (h : ∀ deed ∈ deeds c fuel q r, deed.event.Agrees c c') :
    respond c' fuel q r = respond c fuel q r := by
  by_cases hq : q = .remove
  · rw [hq]
    rfl
  · cases hb : r.buffer with
    | ended => rw [respond_of_ended q hb, respond_of_ended q hb]
    | holding e => rw [respond_of_holding hq hb, respond_of_holding hq hb]
    | empty =>
      rw [deeds_of_empty hq hb] at h
      have hagrees : ∀ ev ∈ (pullAt r.limit fuel r.depth).trace c r.state, ev.Agrees c c' := by
        rw [← event_pullDeeds]
        exact List.forall_mem_map.mpr h
      rw [respond_of_empty hq hb, respond_of_empty hq hb, pull, pull, run_of_agrees _ hagrees]

end

/-- Over any cursor and after any requests, what a reader does with its cursor is all that its
answers depend on. It says that nothing is left only if an advance of its own, now or before, found
the end at its depth; from then on it always says so and does nothing with its cursor. With nothing
held and the end not seen, a cursor at another depth makes all requests fail, now and ever after,
and is only looked at. The reader itself advances only at its depth, and only when it holds
nothing. -/
theorem end_and_stranding_are_final (c : Cursor σ ε) (limit : Option Nat) (fuel : Nat) (s : σ)
    (requests : List Request) :
    let d := (c.view s).depth
    let r := (serve (respond c fuel) requests (start c limit s)).2
    let past := log c fuel requests (start c limit s)
    (∀ q c', (∀ deed ∈ deeds c fuel q r, deed.event.Agrees c c') →
        respond c' fuel q r = respond c fuel q r) ∧
      (∀ q ≠ .remove, (respond c fuel q r).1 = q.answer none →
        SawEnd c d (past ++ deeds c fuel q r)) ∧
      (SawEnd c d past → ∀ more,
        serve (respond c fuel) more r = (more.map fun q => ⟨q, q.answer none⟩, r) ∧
        log c fuel more r = []) ∧
      (r.buffer = .empty → (c.view r.state).depth ≠ d → ∀ more,
        serve (respond c fuel) more r =
          (more.map fun q => ⟨q, q.refusal (.stranded (c.view r.state).depth d)⟩, r) ∧
        ∀ deed ∈ log c fuel more r, deed = .own (.look r.state)) ∧
      ∀ q u, .own (.call .advance u) ∈ deeds c fuel q r →
        r.buffer = .empty ∧ (c.view u).depth = d := by
  intro d r past
  have h : Remembers c d past r := (remembers_start c limit s).serve requests
  refine ⟨?_, ?_, ?_, ?_, ?_⟩
  · intro q c' hagrees
    exact respond_of_agrees hagrees
  · intro q hq hanswer
    exact (h.respond q).ended.mp (ended_of_answer hq hanswer)
  · intro hend more
    have hb := h.ended.mpr hend
    exact ⟨serve_of_ended c fuel hb more, log_of_ended hb more⟩
  · intro hb hd more
    have hdepth : (c.view r.state).depth ≠ r.depth := h.depth ▸ hd
    refine ⟨?_, log_of_stranded hb hdepth more⟩
    rw [serve_of_stranded hb hdepth, h.depth]
  · intro q u hu
    obtain ⟨hb, hu, hdepth⟩ := own_advance_mem_deeds hu
    exact ⟨hb, by rw [hu, hdepth, h.depth]⟩

/-- A cursor that always says that it is at the top does not make the end of a list pass for the
end of the document. -/
theorem end_of_document_with_list :
    let document := [Element.ofValue (.list [.ofScalar .int 1]), .ofScalar .int 2]
    let c : Cursor Walk WalkError :=
      { Walk.cursor with view := fun w => { w.view with depth := 0 } }
    let w := Walk.start document .system
    let r := (serve (respond c 4) [.next, .next, .hasNext] (start c none w)).2
    (serve (respond c 4) [.next, .next, .hasNext] (start c none w)).1 =
        [⟨.next, .ok (.ofValue (.list [.ofScalar .int 1]))⟩, ⟨.next, .ok (.ofScalar .int 2)⟩,
          ⟨.hasNext, .ok false⟩] ∧
      serve (respond c 4) [.next, .peek] r = ([⟨.next, .error .exhausted⟩, ⟨.peek, .ok none⟩], r) := by
  intro document c w r
  have hended : r.buffer = .ended := rfl
  have hremembers : Remembers c 0 (log c 4 [.next, .next, .hasNext] (start c none w)) r :=
    (remembers_start c none w).serve [.next, .next, .hasNext]
  have hfinal := end_and_stranding_are_final c none 4 w [.next, .next, .hasNext]
  exact ⟨rfl, (hfinal.2.2.1 (hremembers.ended.mp hended) [.next, .peek]).1⟩

end Reader
end IonDocument
