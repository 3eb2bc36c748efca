import IonDocument.Proofs.Walk.Follows

/-! # Cursors that refuse calls

A faulty cursor stands before a walk and refuses calls by some rule, which may look at the walk and
at all attempts so far to move it or to read from it. What it does not refuse it passes on. The
attempts that are on record tell on which elements the advances at one depth have landed.
-/
namespace IonDocument
open Dialogue

/-- A call that moves or reads: where the walk was, and whether the call was answered. -/
structure Attempt where
  call : Call
  walk : Walk
  answered : Bool

/-- A walk behind a faulty cursor, with the attempts so far, the last one first. -/
structure Faulty where
  walk : Walk
  attempts : List Attempt

namespace Attempt

/-- The element on which an answered advance at depth `d` landed. -/
def landed? (d : Nat) (a : Attempt) : Option Element :=
  if a.call = .advance ∧ a.answered ∧ a.walk.outer.length = d then a.walk.advance.2.current? else none

def failedAdvance (d : Nat) (a : Attempt) : Bool :=
  a.call = .advance ∧ a.answered = false ∧ a.walk.outer.length = d

/-- Other attempts land nowhere at depth `d`, and are not failures there. -/
theorem elsewhere {d : Nat} {a : Attempt} (h : ¬ (a.call = .advance ∧ a.walk.outer.length = d)) :
    a.landed? d = none ∧ a.failedAdvance d = false := by
  constructor
  · exact if_neg fun ⟨hc, _, hd⟩ => h ⟨hc, hd⟩
  · exact decide_eq_false fun ⟨hc, _, hd⟩ => h ⟨hc, hd⟩

end Attempt

namespace Faulty

abbrev Rule (ε : Type) := Walk → List Attempt → Call → Option ε

/-- All elements on which advances at depth `d` landed, in the order in which they did. -/
def landed (d : Nat) (s : Faulty) : List Element := s.attempts.reverse.filterMap (Attempt.landed? d)

/-- The last attempt was an advance at depth `d`, and it failed. -/
def advanceFailed (d : Nat) (s : Faulty) : Bool := s.attempts.head?.any (Attempt.failedAdvance d)

section
variable {ε : Type} (rule : Rule ε) (wrap : WalkError → ε)

def answer (q : Call) (s : Faulty) : Except ε q.Answer × Walk :=
  match rule s.walk s.attempts q with
  | some e => (.error e, s.walk)
  | none => ((Walk.cursor.perform q s.walk).1.mapError wrap, (Walk.cursor.perform q s.walk).2)

def attempt (q : Call) (s : Faulty) : Except ε q.Answer × Faulty :=
  let (a, w) := answer rule wrap q s
  (a, ⟨w, ⟨q, s.walk, a.isOk⟩ :: s.attempts⟩)

/-- The walk behind a rule; the errors of the walk itself are passed on in a wrapper. -/
def cursor : Cursor Faulty ε where
  view s := s.walk.view
  annotations s := (answer rule wrap .annotations s).1
  fieldName s := (answer rule wrap .fieldName s).1
  advance := attempt rule wrap .advance
  stepIn := attempt rule wrap .stepIn
  stepOut := attempt rule wrap .stepOut
  read k := attempt rule wrap (.read k)

theorem answer_cases (q : Call) (s : Faulty) :
    (∃ a, (answer rule wrap q s).1 = .ok a ∧
      Walk.cursor.perform q s.walk = (.ok a, (answer rule wrap q s).2)) ∨
    ∃ e, (answer rule wrap q s).1 = .error e ∧ (answer rule wrap q s).2 = s.walk := by
  unfold answer
  split
  · exact .inr ⟨_, rfl, rfl⟩
  · rcases Walk.perform_cases q s.walk with ⟨a, w', h⟩ | ⟨e, h⟩
    · rw [h]
      exact .inl ⟨a, rfl, rfl⟩
    · rw [h]
      exact .inr ⟨wrap e, rfl, rfl⟩

theorem follows : Follows (cursor rule wrap) Faulty.walk where
  view _ := rfl
  perform q s := by
    have h := answer_cases rule wrap q s
    cases q with
    | annotations =>
      rcases h with ⟨a, ha, hw⟩ | ⟨e, he, _⟩
      · exact .inl ⟨a, ha, Prod.ext (congrArg (·.1) hw) rfl⟩
      · exact .inr ⟨e, he, rfl⟩
    | fieldName =>
      rcases h with ⟨a, ha, hw⟩ | ⟨e, he, _⟩
      · exact .inl ⟨a, ha, Prod.ext (congrArg (·.1) hw) rfl⟩
      · exact .inr ⟨e, he, rfl⟩
    | advance => exact h
    | stepIn => exact h
    | stepOut => exact h
    | read k => exact h

/-- The attempt that a call leaves on record. -/
def record (q : Call) (s : Faulty) : Attempt := ⟨q, s.walk, (answer rule wrap q s).1.isOk⟩

variable {d : Nat}

theorem landed_attempt (q : Call) (s : Faulty) : (attempt rule wrap q s).2.landed d =
    s.landed d ++ ((record rule wrap q s).landed? d).toList := by
  have h : (attempt rule wrap q s).2.attempts = record rule wrap q s :: s.attempts := rfl
  simp only [landed, h, List.reverse_cons, List.filterMap_append]
  cases ha : (record rule wrap q s).landed? d <;> simp [ha]

/-- What is on record of depth `d` is not touched by anything that happens below it. -/
theorem keptBelow (elements : List Element) : KeptBelow (cursor rule wrap) Faulty.walk d
    fun s => s.landed d = elements ∧ s.advanceFailed d = false := by
  have hattempt : ∀ (q : Call) (s : Faulty), s.landed d = elements →
      (q = .advance → d < s.walk.outer.length) →
      (attempt rule wrap q s).2.landed d = elements ∧
        (attempt rule wrap q s).2.advanceFailed d = false := by
    intro q s hl hq
    obtain ⟨hlanded, hfailed⟩ : (record rule wrap q s).landed? d = none ∧
        (record rule wrap q s).failedAdvance d = false :=
      Attempt.elsewhere fun ⟨ha, hd⟩ => Nat.ne_of_gt (hq ha) hd
    rw [landed_attempt, hlanded]
    exact ⟨(List.append_nil _).trans hl, hfailed⟩
  intro q s hJ hq
  cases q with
  | annotations => exact hJ
  | fieldName => exact hJ
  | advance => exact hattempt .advance s hJ.1 hq
  | stepIn => exact hattempt .stepIn s hJ.1 hq
  | stepOut => exact hattempt .stepOut s hJ.1 hq
  | read k => exact hattempt (.read k) s hJ.1 hq

end
end Faulty
end IonDocument
