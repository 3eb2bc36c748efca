import IonDocument.Proofs.Dialogue.Ends
import IonDocument.Proofs.Walk.Position

/-! # Cursors that follow a walk

A cursor follows a walk when it stands where the walk stands and each of its calls either does
what the same call does to the walk or fails and changes nothing there. What is loaded through
such a cursor is loaded from the document of the walk, up to the calls that fail.
-/
namespace IonDocument
open Dialogue
variable {σ ε : Type}

structure Follows (c : Cursor σ ε) (walk : σ → Walk) : Prop where
  view : ∀ s, c.view s = (walk s).view
  perform : ∀ q s,
    (∃ a, (c.perform q s).1 = .ok a ∧
      Walk.cursor.perform q (walk s) = (.ok a, walk (c.perform q s).2)) ∨
    ∃ e, (c.perform q s).1 = .error e ∧ walk (c.perform q s).2 = walk s

/-- The error of a call that the walk itself would have answered. -/
def Falters (c : Cursor σ ε) (walk : σ → Walk) (e : ε) : Prop :=
  ∃ q s a, (c.perform q s).1 = .error e ∧ (Walk.cursor.perform q (walk s)).1 = .ok a

/-- Every call keeps `J`, the advances at depth `d` and above excepted. -/
def KeptBelow (c : Cursor σ ε) (walk : σ → Walk) (d : Nat) (J : σ → Prop) : Prop :=
  ∀ q s, J s → (q = .advance → d < (walk s).outer.length) → J (c.perform q s).2

/-- A call to a walk fails only without effect. -/
theorem Walk.perform_cases (q : Call) (w : Walk) :
    (∃ a w', Walk.cursor.perform q w = (.ok a, w')) ∨
      ∃ e, Walk.cursor.perform q w = (.error e, w) := by
  cases q with
  | annotations =>
    change (∃ a w', (w.annotations, w) = (.ok a, w')) ∨ ∃ e, (w.annotations, w) = (.error e, w)
    cases w.annotations with
    | ok a => exact .inl ⟨a, w, rfl⟩
    | error e => exact .inr ⟨e, rfl⟩
  | fieldName =>
    change (∃ a w', (w.fieldName, w) = (.ok a, w')) ∨ ∃ e, (w.fieldName, w) = (.error e, w)
    cases w.fieldName with
    | ok a => exact .inl ⟨a, w, rfl⟩
    | error e => exact .inr ⟨e, rfl⟩
  | advance => exact .inl ⟨_, _, rfl⟩
  | stepIn =>
    change (∃ a w', w.stepIn = (.ok a, w')) ∨ ∃ e, w.stepIn = (.error e, w)
    unfold stepIn
    split
    · exact .inr ⟨_, rfl⟩
    · split
      · exact .inl ⟨_, _, rfl⟩
      · exact .inr ⟨_, rfl⟩
  | stepOut =>
    change (∃ a w', w.stepOut = (.ok a, w')) ∨ ∃ e, w.stepOut = (.error e, w)
    unfold stepOut
    split
    · exact .inr ⟨_, rfl⟩
    · exact .inl ⟨_, _, rfl⟩
  | read k =>
    change (∃ a w', w.read k = (.ok a, w')) ∨ ∃ e, w.read k = (.error e, w)
    unfold read
    split
    · exact .inr ⟨_, rfl⟩
    · split
      · exact .inl ⟨_, _, rfl⟩
      · exact .inr ⟨_, rfl⟩

theorem follows_walk : Follows Walk.cursor id where
  view _ := rfl
  perform q w := by
    rcases Walk.perform_cases q w with ⟨a, w', h⟩ | ⟨e, h⟩
    · exact .inl ⟨a, by rw [h], by rw [id, h, id]⟩
    · exact .inr ⟨e, by rw [h], by rw [h]⟩

/-- The walk never falters before itself. -/
theorem not_falters_walk (e : WalkError) : ¬ Falters Walk.cursor id e := by
  rintro ⟨q, w, a, herror, hok⟩
  rw [id, herror] at hok
  cases hok

variable {c : Cursor σ ε} {walk : σ → Walk}

theorem KeptBelow.deeper {d d' : Nat} {J : σ → Prop} (h : KeptBelow c walk d J) (hd : d ≤ d') :
    KeptBelow c walk d' J :=
  fun q s hJ hq => h q s hJ fun ha => Nat.lt_of_le_of_lt hd (hq ha)

theorem keptBelow_true (c : Cursor σ ε) (walk : σ → Walk) (d : Nat) :
    KeptBelow c walk d fun _ => True := fun _ _ _ _ => trivial

/-- A call that failed although the walk answers it. -/
structure Refused (c : Cursor σ ε) (walk : σ → Walk) (q : Call) (s : σ) (e : ReadError ε) (s' : σ) :
    Prop where
  cause : ∃ err, e = .cursor err ∧ (c.perform q s).1 = .error err ∧ Falters c walk err
  place : walk s' = walk s
  state : s' = (c.perform q s).2

/-- A call that the walk answers is answered alike or refused. -/
theorem Follows.ends_ask (hc : Follows c walk) {q : Call} {s : σ} {a : q.Answer} {w' : Walk}
    (h : Walk.cursor.perform q (walk s) = (.ok a, w')) :
    Ends c (ask q) s (fun b s' => b = a ∧ walk s' = w' ∧ c.perform q s = (.ok a, s'))
      (Refused c walk q s) := by
  have hcases := hc.perform q s
  refine Dialogue.ends_ask ?_ ?_
  · intro b s' hb
    rw [hb, h] at hcases
    obtain ⟨_, ⟨⟩, ⟨⟩⟩ | ⟨_, ⟨⟩, _⟩ := hcases
    exact ⟨rfl, rfl, hb⟩
  · intro err s' herror
    have hfst := congrArg Prod.fst herror
    rw [herror] at hcases
    obtain ⟨_, ⟨⟩, _⟩ | ⟨_, ⟨⟩, hplace⟩ := hcases
    exact ⟨⟨err, rfl, hfst, q, s, a, hfst, congrArg Prod.fst h⟩, hplace, by rw [herror]⟩

end IonDocument
