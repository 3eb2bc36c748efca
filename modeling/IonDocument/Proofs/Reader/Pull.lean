import IonDocument.Reader
import IonDocument.Proofs.Loading.Copy

/-! # Pulling the next child of a level

At its own depth a reader advances once and loads what it lands on. Over a cursor that follows a
walk this passes exactly one child, and at the end of the level it finishes the level.
-/
namespace IonDocument.Reader
open Dialogue
variable {σ ε : Type} {c : Cursor σ ε} {walk : σ → Walk}

section
variable (hc : Follows c walk) (limit : Option Nat) (fuel : Nat) {w : Walk} {s : σ}
include hc

/-- A reader at its own depth goes on with an advance. -/
theorem ends_pullAt (hs : walk s = w) {Q : Option Element → σ → Prop} {E : ReadError ε → σ → Prop}
    (h : Ends c (ask .advance >>= fun
      | none => pure none
      | some _ => load limit fuel >>= fun e => pure (some e)) s Q E) :
    Ends c (pullAt limit fuel w.outer.length) s Q E := by
  have hdepth : (c.view s).depth = w.outer.length := by
    rw [hc.view, hs]
    rfl
  refine (ends_observe (Q := fun v s' => v.depth = w.outer.length ∧ s' = s) ⟨hdepth, rfl⟩).bind ?_
  rintro view _ ⟨hv, rfl⟩
  simp only [hv, if_true]
  exact h

theorem ends_pullAt_nil (hs : walk s = w) (hr : w.top.remaining = []) :
    Ends c (pullAt limit fuel w.outer.length) s
      (fun o s' => o = none ∧ walk s' = w.withTop w.top.finish ∧
        c.perform .advance s = (.ok none, s'))
      (Refused c walk .advance s) := by
  have hadvance : Walk.cursor.perform .advance (walk s) = (.ok none, w.withTop w.top.finish) :=
    hs.symm ▸ Walk.advance_of_nil hr
  refine ends_pullAt hc limit fuel hs ((hc.ends_ask hadvance).bind ?_)
  rintro _ s' ⟨rfl, hs', hstate⟩
  exact ends_pure ⟨rfl, hs', hstate⟩

theorem ends_pullAt_cons {J : σ → Prop} (hs : walk s = w) {e : Element} {rest : List Element}
    (hr : w.top.remaining = e :: rest) (hfuel : e.size < fuel)
    (hk : KeptBelow c walk w.outer.length J)
    (hJ : ∀ s', c.perform .advance s = (.ok (some e.kind), s') → J s') :
    Ends c (pullAt limit fuel w.outer.length) s
      (fun o s' => o = some e ∧ walk s' = w.withTop (w.top.pass 1) ∧ J s')
      (fun err s' => Refused c walk .advance s err s' ∨
        Spoilt c walk limit (w.withTop (w.top.pass 1)) e J err s') := by
  have hadvance : Walk.cursor.perform .advance (walk s) =
      (.ok (some e.kind), w.withTop (w.top.pass 1)) := hs.symm ▸ Walk.advance_of_cons hr
  refine ends_pullAt hc limit fuel hs (((hc.ends_ask hadvance).mono (fun _ _ h => h)
    (fun _ _ h => .inl h)).bind ?_)
  rintro _ s₁ ⟨rfl, hs₁, hstate⟩
  have hload := copies_load hc limit (w := w.withTop (w.top.pass 1)) hk
    (Level.current?_pass_one hr) hfuel s₁ [] hs₁ (hJ s₁ hstate)
  refine (hload.ends.mono (fun _ _ h => h) (fun _ _ h => .inr h)).bind ?_
  rintro _ s₂ ⟨rfl, hs₂, hJ₂, -⟩
  exact ends_pure ⟨rfl, hs₂, hJ₂⟩

end

section
variable {fuel : Nat} {r : Reader σ} {s : σ}

theorem pull_of_none (h : (pullAt r.limit fuel r.depth).run c r.state = (.ok none, s)) :
    r.pull c fuel = (.ok none, { r with state := s, buffer := .ended }) := by
  simp only [pull, h]

/-- At another depth than its own a reader does nothing to its cursor. -/
theorem pull_of_stranded (h : (c.view r.state).depth ≠ r.depth) : r.pull c fuel =
    (.error (.fault (.stranded (c.view r.state).depth r.depth)), r) := by
  have hrun : (pullAt r.limit fuel r.depth).run c r.state =
      (.error (.fault (.stranded (c.view r.state).depth r.depth)), r.state) := by
    simp only [pullAt, run_bind, run_observe, Outcome.andThen_ok, if_neg h, run_fail]
  simp only [pull, hrun]

/-- What a pull ends with, by what its dialogue ends with. -/
theorem pull_elim {Q : Option Element → σ → Prop} {E : ReadError ε → σ → Prop}
    {P : Outcome ε (Option Element) → Reader σ → Prop}
    (h : Ends c (pullAt r.limit fuel r.depth) r.state Q E)
    (hnone : ∀ s, Q none s → P (.ok none) { r with state := s, buffer := .ended })
    (hsome : ∀ e s, Q (some e) s → P (.ok (some e)) { r with state := s })
    (herror : ∀ e s, E e s → P (.error e) { r with state := s }) :
    P (r.pull c fuel).1 (r.pull c fuel).2 := by
  unfold Ends at h
  unfold pull
  rcases hrun : (pullAt r.limit fuel r.depth).run c r.state with ⟨o, s⟩
  rw [hrun] at h
  rcases o with (_ | e) | e | _
  · exact hnone s h
  · exact hsome e s h
  · exact herror e s h
  · exact h.elim

theorem depth_pull (c : Cursor σ ε) (fuel : Nat) (r : Reader σ) :
    (r.pull c fuel).2.depth = r.depth := by
  unfold pull
  split <;> rfl

theorem pull_of_some {e : Element}
    (h : (pullAt r.limit fuel r.depth).run c r.state = (.ok (some e), s)) :
    r.pull c fuel = (.ok (some e), { r with state := s }) := by
  simp only [pull, h]

end

/-- A walk refuses nothing that it answers. -/
theorem not_refused_walk {q : Call} {w w' : Walk} {e : ReadError WalkError} :
    ¬ Refused Walk.cursor id q w e w' := by
  rintro ⟨⟨err, _, _, hf⟩, _, _⟩
  exact not_falters_walk err hf

theorem run_pullAt_nil {w : Walk} (limit : Option Nat) (fuel : Nat) (hr : w.top.remaining = []) :
    (pullAt limit fuel w.outer.length).run Walk.cursor w = (.ok none, w.withTop w.top.finish) := by
  have h := ends_pullAt_nil follows_walk limit fuel rfl hr
  exact (h.mono (fun _ _ h => ⟨h.1, h.2.1⟩) (fun _ _ h => not_refused_walk h)).run_eq

theorem run_pullAt_cons {w : Walk} {fuel : Nat} {e : Element} {rest : List Element}
    (hr : w.top.remaining = e :: rest) (hfuel : e.size < fuel) :
    (pullAt none fuel w.outer.length).run Walk.cursor w =
      (.ok (some e), w.withTop (w.top.pass 1)) := by
  have h := ends_pullAt_cons follows_walk none fuel rfl hr hfuel (keptBelow_true _ _ _)
    fun _ _ => trivial
  refine (h.mono (fun _ _ h => ⟨h.1, h.2.1⟩) ?_).run_eq
  intro err w' hspoilt
  rcases hspoilt with h | h
  · exact not_refused_walk h
  · exact not_spoilt_walk h

end IonDocument.Reader
