import IonDocument.Proofs.Dialogue.Trace

/-! # What a dialogue ends with

A dialogue is described by two predicates, one on its result and one on its error, each together
with the state that the cursor is left in. A run whose fuel is spent satisfies neither, so
whatever is shown to end is also shown to have had fuel enough.
-/
namespace IonDocument.Dialogue
variable {α β σ ε : Type} {c : Cursor σ ε} {s : σ}

/-- The run from `s` ends, with a result that satisfies `Q` or an error that satisfies `E`. -/
def Ends (c : Cursor σ ε) (p : Dialogue α) (s : σ) (Q : α → σ → Prop)
    (E : ReadError ε → σ → Prop) : Prop :=
  match p.run c s with
  | (.ok a, s') => Q a s'
  | (.error e, s') => E e s'
  | (.unfinished, _) => False

variable {p : Dialogue α} {Q Q' : α → σ → Prop} {R : β → σ → Prop} {E E' : ReadError ε → σ → Prop}

/-- What a run ends with, whatever history there was before it. -/
theorem Ends.goes {U : List (Event σ) → Prop} (h : Ends c p s Q E) (past : List (Event σ)) :
    Goes c p s past (fun a s' _ => Q a s') (fun e s' _ => E e s') U := by
  unfold Ends at h
  unfold Goes
  rcases hr : p.run c s with ⟨a | e | _, s'⟩
  · rw [hr] at h
    exact h
  · rw [hr] at h
    exact h
  · rw [hr] at h
    exact h.elim

theorem Goes.ends {past : List (Event σ)} (h : Goes c p s past (fun a s' _ => Q a s')
    (fun e s' _ => E e s') fun _ => False) : Ends c p s Q E := by
  unfold Goes at h
  unfold Ends
  rcases hr : p.run c s with ⟨a | e | _, s'⟩
  · rw [hr] at h
    exact h
  · rw [hr] at h
    exact h
  · rw [hr] at h
    exact h

theorem Ends.mono (h : Ends c p s Q E) (hQ : ∀ a s', Q a s' → Q' a s')
    (hE : ∀ e s', E e s' → E' e s') : Ends c p s Q' E' := by
  refine (((h.goes []).mono ?_).mono_error ?_).ends
  · intro a s' _
    exact hQ a s'
  · intro e s' _
    exact hE e s'

theorem Ends.bind {f : α → Dialogue β} (hp : Ends c p s Q E)
    (hf : ∀ a s', Q a s' → Ends c (f a) s' R E) : Ends c (p >>= f) s R E := by
  refine ((hp.goes []).bind ?_).ends
  intro a s' past ha
  exact (hf a s' ha).goes past

theorem ends_pure {a : α} (h : Q a s) : Ends c (pure a : Dialogue α) s Q E := h

theorem ends_observe {Q : View → σ → Prop} (h : Q (c.view s) s) : Ends c observe s Q E := h

/-- One call ends with its answer or with its own error. -/
theorem ends_ask {q : Call} {Q : q.Answer → σ → Prop}
    (hok : ∀ a s', c.perform q s = (.ok a, s') → Q a s')
    (herror : ∀ e s', c.perform q s = (.error e, s') → E (.cursor e) s') :
    Ends c (ask q) s Q E := by
  have h : Goes c (ask q) s [] (fun a s' _ => Q a s') (fun e s' _ => E e s') fun _ => False :=
    goes_ask hok herror
  exact h.ends

/-- Where no error is possible and one result is, the run is that result. -/
theorem Ends.run_eq {a : α} {s' : σ}
    (h : Ends c p s (fun b t => b = a ∧ t = s') (fun _ _ => False)) : p.run c s = (.ok a, s') := by
  unfold Ends at h
  split at h
  · rename_i b t hr
    rw [hr, h.1, h.2]
  · exact h.elim
  · exact h.elim

end IonDocument.Dialogue
