import IonDocument.Dialogue

/-! # The trace of a dialogue

The trace lists the looks and the calls of a run in the order in which they are made, each with the
state that it was made in. A call that fails is the last event of its run. The rules at the end
describe a run together with its history, which is the trace so far with the last event first.
-/
namespace IonDocument

inductive Event (σ : Type) where
  | look (s : σ)
  | call (q : Call) (s : σ)

/-- Two cursors over the same states do alike at an event. -/
def Event.Agrees {σ ε : Type} (c d : Cursor σ ε) : Event σ → Prop
  | .look s => c.view s = d.view s
  | .call q s => c.perform q s = d.perform q s

namespace Dialogue
variable {α β σ ε : Type} {c : Cursor σ ε} {s s' : σ}

def trace (c : Cursor σ ε) : Dialogue α → σ → List (Event σ)
  | .done _, _ => []
  | .fail _, _ => []
  | .unfinished, _ => []
  | .look next, s => .look s :: (next (c.view s)).trace c s
  | .call q next, s => .call q s ::
    match c.perform q s with
    | (.ok a, s') => (next a).trace c s'
    | (.error _, _) => []

theorem trace_bind (c : Cursor σ ε) (p : Dialogue α) (f : α → Dialogue β) (s : σ) :
    (p >>= f).trace c s = p.trace c s ++
      match p.run c s with
      | (.ok a, s') => (f a).trace c s'
      | _ => [] := by
  induction p generalizing s with
  | done a => rfl
  | fail e => rfl
  | unfinished => rfl
  | look next ih => exact congrArg (Event.look s :: ·) (ih (c.view s) s)
  | call q next ih =>
    change (Dialogue.call q fun a => (next a).bind f).trace c s = _
    simp only [trace, run, List.cons_append]
    rcases c.perform q s with ⟨e | a, s'⟩
    · rfl
    · exact congrArg (Event.call q s :: ·) (ih a s')

theorem trace_observe_bind (c : Cursor σ ε) (f : View → Dialogue β) (s : σ) :
    (observe >>= f).trace c s = .look s :: (f (c.view s)).trace c s := rfl

theorem trace_ask_bind (c : Cursor σ ε) (q : Call) (f : q.Answer → Dialogue β) (s : σ) :
    (ask q >>= f).trace c s = .call q s ::
      match c.perform q s with
      | (.ok a, s') => (f a).trace c s'
      | (.error _, _) => [] := by
  change (Dialogue.call q fun a => (Dialogue.done a).bind f).trace c s = _
  rw [trace]
  rfl

theorem trace_map (c : Cursor σ ε) (f : α → β) (p : Dialogue α) (s : σ) :
    (f <$> p).trace c s = p.trace c s := by
  rw [map_eq_pure_bind, trace_bind]
  split <;> exact List.append_nil _

/-- After a failed call nothing is asked any more: its error is the result, and its state stays. -/
theorem run_of_failed_call (p : Dialogue α) {past future : List (Event σ)} {q : Call} {u : σ}
    {e : ε} (ht : p.trace c s = past ++ .call q u :: future) (he : (c.perform q u).1 = .error e) :
    future = [] ∧ p.run c s = (.error (.cursor e), (c.perform q u).2) := by
  induction p generalizing s past with
  | done a => cases past <;> cases ht
  | fail f => cases past <;> cases ht
  | unfinished => cases past <;> cases ht
  | look next ih =>
    cases past with
    | nil => cases ht
    | cons ev past => exact ih _ (List.cons.inj ht).2
  | call r next ih =>
    simp only [trace] at ht
    simp only [run]
    cases past with
    | nil =>
      obtain ⟨hev, hfuture⟩ := List.cons.inj ht
      obtain ⟨rfl, rfl⟩ := Event.call.inj hev
      rcases hc : c.perform r s with ⟨e' | a, s'⟩
      · rw [hc] at hfuture he
        cases he
        exact ⟨hfuture.symm, rfl⟩
      · rw [hc] at he
        cases he
    | cons ev past =>
      have hrest := (List.cons.inj ht).2
      rcases hc : c.perform r s with ⟨e' | a, s'⟩
      · rw [hc] at hrest
        cases past <;> cases hrest
      · rw [hc] at hrest
        exact ih _ hrest

/-- An error of the cursor is the result only of a run that ends with the call that failed so. -/
theorem exists_failed_call (p : Dialogue α) {e : ε} (h : p.run c s = (.error (.cursor e), s')) :
    ∃ past q u, p.trace c s = past ++ [.call q u] ∧ c.perform q u = (.error e, s') := by
  induction p generalizing s with
  | done a => cases h
  | fail f => cases h
  | unfinished => cases h
  | look next ih =>
    obtain ⟨past, q, u, ht, hu⟩ := ih _ h
    exact ⟨.look s :: past, q, u, congrArg (Event.look s :: ·) ht, hu⟩
  | call r next ih =>
    simp only [run] at h
    simp only [trace]
    rcases hc : c.perform r s with ⟨e' | a, s''⟩
    · rw [hc] at h
      cases h
      exact ⟨[], r, s, rfl, hc⟩
    · rw [hc] at h
      obtain ⟨past, q, u, ht, hu⟩ := ih _ h
      exact ⟨.call r s :: past, q, u, congrArg (Event.call r s :: ·) ht, hu⟩

/-- A run depends on its cursor only by what is in its trace. -/
theorem run_of_agrees {d : Cursor σ ε} (p : Dialogue α)
    (h : ∀ ev ∈ p.trace c s, ev.Agrees c d) : p.run d s = p.run c s := by
  induction p generalizing s with
  | done a => rfl
  | fail f => rfl
  | unfinished => rfl
  | look next ih =>
    rw [trace, List.forall_mem_cons] at h
    obtain ⟨hview, hrest⟩ := h
    have hview : c.view s = d.view s := hview
    simp only [run, ← hview]
    exact ih _ hrest
  | call q next ih =>
    rw [trace, List.forall_mem_cons] at h
    obtain ⟨hanswer, hrest⟩ := h
    have hanswer : c.perform q s = d.perform q s := hanswer
    simp only [run, ← hanswer]
    rcases hc : c.perform q s with ⟨e | a, s'⟩
    · rfl
    · rw [hc] at hrest
      exact ih a hrest

/-- The run from `s`, with the history `past` before it, ends with a result and a history that
satisfy `Q`, or with an error and a history that satisfy `E`, or its fuel is spent after a history
that satisfies `U`. -/
def Goes (c : Cursor σ ε) (p : Dialogue α) (s : σ) (past : List (Event σ))
    (Q : α → σ → List (Event σ) → Prop) (E : ReadError ε → σ → List (Event σ) → Prop)
    (U : List (Event σ) → Prop) : Prop :=
  match p.run c s with
  | (.ok a, s') => Q a s' ((p.trace c s).reverse ++ past)
  | (.error e, s') => E e s' ((p.trace c s).reverse ++ past)
  | (.unfinished, _) => U ((p.trace c s).reverse ++ past)

variable {p : Dialogue α} {past : List (Event σ)} {Q Q' : α → σ → List (Event σ) → Prop}
  {R : β → σ → List (Event σ) → Prop} {E : ReadError ε → σ → List (Event σ) → Prop}
  {U : List (Event σ) → Prop}

theorem Goes.mono (h : Goes c p s past Q E U) (hQ : ∀ a s' past', Q a s' past' → Q' a s' past') :
    Goes c p s past Q' E U := by
  unfold Goes at h ⊢
  rcases hr : p.run c s with ⟨a | e | _, s'⟩
  · rw [hr] at h
    exact hQ _ _ _ h
  · rw [hr] at h
    exact h
  · rw [hr] at h
    exact h

theorem Goes.mono_error {E' : ReadError ε → σ → List (Event σ) → Prop} (h : Goes c p s past Q E U)
    (hE : ∀ e s' past', E e s' past' → E' e s' past') : Goes c p s past Q E' U := by
  unfold Goes at h ⊢
  rcases hr : p.run c s with ⟨a | e | _, s'⟩
  · rw [hr] at h
    exact h
  · rw [hr] at h
    exact hE _ _ _ h
  · rw [hr] at h
    exact h

theorem Goes.bind {f : α → Dialogue β} (hp : Goes c p s past Q E U)
    (hf : ∀ a s' past', Q a s' past' → Goes c (f a) s' past' R E U) :
    Goes c (p >>= f) s past R E U := by
  unfold Goes at hp ⊢
  rw [run_bind, trace_bind]
  rcases hr : p.run c s with ⟨a | e | _, s'⟩
  · rw [hr] at hp
    have h := hf a s' _ hp
    unfold Goes at h
    simp only [Outcome.andThen_ok, List.reverse_append, List.append_assoc]
    exact h
  · rw [hr] at hp
    simp only [List.append_nil]
    exact hp
  · rw [hr] at hp
    simp only [List.append_nil]
    exact hp

theorem goes_pure {a : α} (h : Q a s past) : Goes c (pure a : Dialogue α) s past Q E U := h

theorem goes_fail {f : Fault} (h : E (.fault f) s past) :
    Goes c (.fail f : Dialogue α) s past Q E U := h

theorem goes_unfinished (h : U past) : Goes c (.unfinished : Dialogue α) s past Q E U := h

theorem goes_observe {Q : View → σ → List (Event σ) → Prop} (h : Q (c.view s) s (.look s :: past)) :
    Goes c observe s past Q E U := h

theorem goes_ask {q : Call} {Q : q.Answer → σ → List (Event σ) → Prop}
    (hok : ∀ a s', c.perform q s = (.ok a, s') → Q a s' (.call q s :: past))
    (herror : ∀ e s', c.perform q s = (.error e, s') → E (.cursor e) s' (.call q s :: past)) :
    Goes c (ask q) s past Q E U := by
  unfold Goes
  rcases hr : c.perform q s with ⟨e | a, s'⟩
  · rw [run_ask_error hr]
    simp only [ask, trace, hr]
    exact herror e s' hr
  · rw [run_ask_ok hr]
    simp only [ask, trace, hr]
    exact hok a s' hr

/-- After a step of a loop that has collected `got`, the last item first: with another item the
invariant holds again, and otherwise it is done. -/
def AfterStep (I D : List α → σ → List (Event σ) → Prop) (got : List α) :
    Option α → σ → List (Event σ) → Prop
  | some a => I (a :: got)
  | none => D got.reverse

/-- A loop that keeps `I` with each item, which may depend on the items before it, goes on until a
step gives nothing or the fuel is spent. -/
theorem goes_gather {step : Dialogue (Option α)} {I D : List α → σ → List (Event σ) → Prop}
    {fuel : Nat} (hstep : ∀ got s past, I got s past → Goes c step s past (AfterStep I D got) E U)
    (hspent : ∀ got s past, got.length = fuel → I got s past → U past) {n : Nat} {got : List α}
    (hn : got.length + n = fuel) (h : I got s past) : Goes c (gather step n got) s past D E U := by
  induction n generalizing s past got with
  | zero => exact goes_unfinished (hspent got s past hn h)
  | succ n ih =>
    refine (hstep got s past h).bind ?_
    intro o s' past' ho
    cases o with
    | none => exact goes_pure ho
    | some a =>
      apply ih _ ho
      rw [List.length_cons]
      omega

/-- Where every look keeps `I`, and so does every call, it holds of the state and the history at the
end of each run. -/
theorem holds_after_run (I : σ → List (Event σ) → Prop)
    (hlook : ∀ s past, I s past → I s (.look s :: past))
    (hcall : ∀ q s past, I s past → I (c.perform q s).2 (.call q s :: past)) (p : Dialogue α)
    (h : I s past) : I (p.run c s).2 ((p.trace c s).reverse ++ past) := by
  induction p generalizing s past with
  | done a => exact h
  | fail f => exact h
  | unfinished => exact h
  | look next ih =>
    rw [run, trace, List.reverse_cons, List.append_assoc]
    exact ih _ (hlook s past h)
  | call q next ih =>
    have hnext := hcall q s past h
    rw [run, trace, List.reverse_cons, List.append_assoc]
    rcases hq : c.perform q s with ⟨e | a, s'⟩
    · rw [hq] at hnext
      exact hnext
    · rw [hq] at hnext
      exact ih a hnext

end Dialogue
end IonDocument
