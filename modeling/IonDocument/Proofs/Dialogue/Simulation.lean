import IonDocument.Dialogue

/-! # Simulations between cursors

Two cursors are in simulation along a relation of their states when related states look the same,
every call is answered alike from them, and the states that it leads to are related again. A
dialogue learns nothing else of a cursor, so it ends alike over both, however they fail.
-/
namespace IonDocument
variable {σ τ ε : Type}

structure Simulates (c : Cursor σ ε) (d : Cursor τ ε) (R : σ → τ → Prop) : Prop where
  view : ∀ s t, R s t → c.view s = d.view t
  annotations : ∀ s t, R s t → c.annotations s = d.annotations t
  fieldName : ∀ s t, R s t → c.fieldName s = d.fieldName t
  advance : ∀ s t, R s t → (c.advance s).1 = (d.advance t).1 ∧ R (c.advance s).2 (d.advance t).2
  stepIn : ∀ s t, R s t → (c.stepIn s).1 = (d.stepIn t).1 ∧ R (c.stepIn s).2 (d.stepIn t).2
  stepOut : ∀ s t, R s t → (c.stepOut s).1 = (d.stepOut t).1 ∧ R (c.stepOut s).2 (d.stepOut t).2
  read : ∀ k s t, R s t → (c.read k s).1 = (d.read k t).1 ∧ R (c.read k s).2 (d.read k t).2

variable {c : Cursor σ ε} {d : Cursor τ ε} {R : σ → τ → Prop} {s : σ} {t : τ}

theorem Simulates.perform (h : Simulates c d R) (q : Call) (hR : R s t) :
    (c.perform q s).1 = (d.perform q t).1 ∧ R (c.perform q s).2 (d.perform q t).2 := by
  cases q with
  | annotations => exact ⟨h.annotations s t hR, hR⟩
  | fieldName => exact ⟨h.fieldName s t hR, hR⟩
  | advance => exact h.advance s t hR
  | stepIn => exact h.stepIn s t hR
  | stepOut => exact h.stepOut s t hR
  | read k => exact h.read k s t hR

/-- The same outcome, in states that are related. -/
def Matches {α S T : Type} (R : S → T → Prop) (x : Outcome ε α × S) (y : Outcome ε α × T) : Prop :=
  x.1 = y.1 ∧ R x.2 y.2

theorem Matches.exists_eq {α S T : Type} {R : S → T → Prop} {x : Outcome ε α × S}
    {y : Outcome ε α × T} (h : Matches R x y) : ∃ o s t, x = (o, s) ∧ y = (o, t) ∧ R s t := by
  rcases x with ⟨o, s⟩
  rcases y with ⟨o', t⟩
  obtain ⟨ho, hR⟩ := h
  obtain rfl : o = o' := ho
  exact ⟨o, s, t, rfl, rfl, hR⟩

theorem Matches.andThen {α β S T : Type} {R : S → T → Prop} {x : Outcome ε α × S}
    {y : Outcome ε α × T} {f : α → S → Outcome ε β × S} {g : α → T → Outcome ε β × T}
    (h : Matches R x y) (hfg : ∀ a s t, R s t → Matches R (f a s) (g a t)) :
    Matches R (Outcome.andThen x f) (Outcome.andThen y g) := by
  obtain ⟨o, s, t, rfl, rfl, hR⟩ := h.exists_eq
  cases o with
  | ok a => exact hfg a s t hR
  | error e => exact ⟨rfl, hR⟩
  | unfinished => exact ⟨rfl, hR⟩

theorem Dialogue.run_simulates {α : Type} (h : Simulates c d R) (p : Dialogue α) (hR : R s t) :
    Matches R (p.run c s) (p.run d t) := by
  induction p generalizing s t with
  | done a => exact ⟨rfl, hR⟩
  | fail f => exact ⟨rfl, hR⟩
  | unfinished => exact ⟨rfl, hR⟩
  | look next ih =>
    simp only [run, h.view s t hR]
    exact ih _ hR
  | call q next ih =>
    obtain ⟨hanswer, hstates⟩ := h.perform q hR
    rcases hc : c.perform q s with ⟨a, s'⟩
    rcases hd : d.perform q t with ⟨b, t'⟩
    rw [hc, hd] at hanswer hstates
    obtain rfl : a = b := hanswer
    simp only [run, hc, hd]
    cases a with
    | ok a => exact ih a hstates
    | error e => exact ⟨rfl, hstates⟩

end IonDocument
