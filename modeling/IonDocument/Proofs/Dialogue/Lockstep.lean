import IonDocument.Proofs.Dialogue.Trace

/-! # Dialogues in lockstep

One dialogue is in lockstep with another when it makes the same looks and calls for as long as it
goes on, and then ends with a related result. It may give up earlier, because a container is too
deep for it or its fuel is spent. What the two are shown at a look may differ, within a relation. A
run of the first dialogue is then a beginning of a run of the second, and if it does not give up it
is the whole of it.
-/
namespace IonDocument.Dialogue
variable {α β γ δ σ ε : Type}

inductive Lockstep (V : View → View → Prop) (R : α → β → Prop) :
    Dialogue α → Dialogue β → Prop where
  | done {a : α} {b : β} (h : R a b) : Lockstep V R (.done a) (.done b)
  | fail (f : Fault) : Lockstep V R (.fail f) (.fail f)
  | tooDeep (n : Nat) (q : Dialogue β) : Lockstep V R (.fail (.tooDeep n)) q
  | unfinished (q : Dialogue β) : Lockstep V R .unfinished q
  | look {next : View → Dialogue α} {next' : View → Dialogue β}
      (h : ∀ v w, V v w → Lockstep V R (next v) (next' w)) : Lockstep V R (.look next) (.look next')
  | call {c : Call} {next : c.Answer → Dialogue α} {next' : c.Answer → Dialogue β}
      (h : ∀ a, Lockstep V R (next a) (next' a)) : Lockstep V R (.call c next) (.call c next')

/-- Two cursors over the same states do the same, and show what is related. -/
structure Shows (V : View → View → Prop) (c d : Cursor σ ε) : Prop where
  view : ∀ s, V (c.view s) (d.view s)
  perform : ∀ q s, d.perform q s = c.perform q s

section
variable {V : View → View → Prop} {R : α → β → Prop} {S : γ → δ → Prop} {p : Dialogue α}
  {q : Dialogue β}

theorem Lockstep.bind {f : α → Dialogue γ} {g : β → Dialogue δ} (h : Lockstep V R p q)
    (hf : ∀ a b, R a b → Lockstep V S (f a) (g b)) : Lockstep V S (p >>= f) (q >>= g) := by
  induction h with
  | done h => exact hf _ _ h
  | fail e => exact .fail e
  | tooDeep n q => exact .tooDeep n _
  | unfinished q => exact .unfinished _
  | look h ih => exact .look ih
  | call h ih => exact .call ih

theorem lockstep_pure {a : α} {b : β} (h : R a b) :
    Lockstep V R (pure a : Dialogue α) (pure b) := .done h

theorem lockstep_observe : Lockstep V V observe observe := .look fun _ _ h => .done h

theorem lockstep_ask (c : Call) : Lockstep V Eq (ask c) (ask c) := .call fun _ => .done rfl

/-- Loops are in lockstep if their steps are, with items compared by something of them. The second
loop may go on for longer. -/
theorem lockstep_gather {f : α → γ} {step step' : Dialogue (Option α)}
    (hstep : Lockstep V (fun o o' => o.map f = o'.map f) step step') {n m : Nat} (hn : n ≤ m)
    {got got' : List α} (hgot : got.map f = got'.map f) :
    Lockstep V (fun out out' => out.map f = out'.map f) (gather step n got)
      (gather step' m got') := by
  induction n generalizing m got got' with
  | zero => exact .unfinished _
  | succ n ih =>
    obtain ⟨m, rfl⟩ : ∃ k, m = k + 1 := ⟨m - 1, by omega⟩
    refine hstep.bind ?_
    rintro (_ | a) (_ | b) ho
    · exact lockstep_pure (by rw [List.map_reverse, List.map_reverse, hgot])
    · cases ho
    · cases ho
    · refine ih (Nat.le_of_succ_le_succ hn) ?_
      rw [List.map_cons, List.map_cons, Option.some.inj ho, hgot]

variable {c d : Cursor σ ε} {s s' : σ}

theorem Lockstep.trace_prefix (h : Lockstep V R p q) (hc : Shows V c d) :
    p.trace c s <+: q.trace d s := by
  induction h generalizing s with
  | done h => exact List.nil_prefix
  | fail e => exact List.nil_prefix
  | tooDeep n q => exact List.nil_prefix
  | unfinished q => exact List.nil_prefix
  | look h ih =>
    rw [trace, trace]
    exact List.cons_prefix_cons.mpr ⟨rfl, ih _ _ (hc.view s)⟩
  | @call q next next' h ih =>
    rw [trace, trace, hc.perform]
    refine List.cons_prefix_cons.mpr ⟨rfl, ?_⟩
    rcases c.perform q s with ⟨e | a, t⟩
    · exact List.nil_prefix
    · exact ih a

/-- Where the first dialogue ends with a result, so does the second, after the same calls. -/
theorem Lockstep.run_ok (h : Lockstep V R p q) (hc : Shows V c d) {a : α}
    (hrun : p.run c s = (.ok a, s')) :
    q.trace d s = p.trace c s ∧ ∃ b, q.run d s = (.ok b, s') ∧ R a b := by
  induction h generalizing s with
  | done h =>
    cases hrun
    exact ⟨rfl, _, rfl, h⟩
  | fail e => cases hrun
  | tooDeep n q => cases hrun
  | unfinished q => cases hrun
  | look h ih =>
    obtain ⟨ht, hend⟩ := ih _ _ (hc.view s) hrun
    exact ⟨congrArg (Event.look s :: ·) ht, hend⟩
  | @call q next next' h ih =>
    simp only [run, trace, hc.perform] at hrun ⊢
    rcases hq : c.perform q s with ⟨e | a, t⟩
    · rw [hq] at hrun
      cases hrun
    · rw [hq] at hrun
      obtain ⟨ht, hend⟩ := ih a hrun
      exact ⟨congrArg (Event.call q s :: ·) ht, hend⟩

theorem Lockstep.run_error (h : Lockstep V R p q) (hc : Shows V c d) {e : ReadError ε}
    (hrun : p.run c s = (.error e, s')) (he : ∀ n, e ≠ .fault (.tooDeep n)) :
    q.trace d s = p.trace c s ∧ q.run d s = (.error e, s') := by
  induction h generalizing s with
  | done h => cases hrun
  | fail f =>
    cases hrun
    exact ⟨rfl, rfl⟩
  | tooDeep n q =>
    cases hrun
    exact absurd rfl (he n)
  | unfinished q => cases hrun
  | look h ih =>
    obtain ⟨ht, hend⟩ := ih _ _ (hc.view s) hrun
    exact ⟨congrArg (Event.look s :: ·) ht, hend⟩
  | @call q next next' h ih =>
    simp only [run, trace, hc.perform] at hrun ⊢
    rcases hq : c.perform q s with ⟨e' | a, t⟩
    · rw [hq] at hrun
      cases hrun
      exact ⟨rfl, rfl⟩
    · rw [hq] at hrun
      obtain ⟨ht, hend⟩ := ih a hrun
      exact ⟨congrArg (Event.call q s :: ·) ht, hend⟩

end
end IonDocument.Dialogue
