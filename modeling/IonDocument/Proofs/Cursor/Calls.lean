import IonDocument.Cursor

/-! # Sequences of calls

Whoever holds a cursor may call it in any order, also after calls that failed. A sequence of calls
has its answers, a state after it, and the moves that were made in it. Calls that leave the state as
it is can be put in anywhere, and nothing else in the sequence changes.
-/
namespace IonDocument

/-- A call together with its answer. -/
abbrev Answered (ε : Type) := (q : Call) × Except ε q.Answer

/-- The calls that take a cursor to another place. -/
def Call.isMove : Call → Bool
  | .advance | .stepIn | .stepOut => true
  | _ => false

namespace Cursor
variable {σ ε : Type}

def answers (c : Cursor σ ε) : List Call → σ → List (Answered ε)
  | [], _ => []
  | q :: calls, s => ⟨q, (c.perform q s).1⟩ :: c.answers calls (c.perform q s).2

def after (c : Cursor σ ε) : List Call → σ → σ
  | [], s => s
  | q :: calls, s => c.after calls (c.perform q s).2

/-- The moves in a sequence of calls. A move that fails is none. -/
def moves (c : Cursor σ ε) : List Call → σ → List Call
  | [], _ => []
  | q :: calls, s =>
    (if q.isMove ∧ (c.perform q s).1.isOk then [q] else []) ++ c.moves calls (c.perform q s).2

theorem after_append (c : Cursor σ ε) (calls later : List Call) (s : σ) :
    c.after (calls ++ later) s = c.after later (c.after calls s) := by
  induction calls generalizing s with
  | nil => rfl
  | cons q calls ih => exact ih (c.perform q s).2

/-- The calls that stay where the marked ones are left out. -/
def unmarked (calls : List (Call × Bool)) : List Call := (calls.filter (!·.2)).map Prod.fst

/-- The answers to the calls that are not marked, while all are made. -/
def unmarkedAnswers (c : Cursor σ ε) : List (Call × Bool) → σ → List (Answered ε)
  | [], _ => []
  | (q, marked) :: calls, s =>
    (if marked then [] else [⟨q, (c.perform q s).1⟩]) ++ c.unmarkedAnswers calls (c.perform q s).2

/-- Every marked call is no move, or it is refused. -/
def MarksSpare (c : Cursor σ ε) : List (Call × Bool) → σ → Prop
  | [], _ => True
  | (q, marked) :: calls, s =>
    (marked = true → q.isMove = false ∨ (c.perform q s).1.isOk = false) ∧
      c.MarksSpare calls (c.perform q s).2

/-- Over a cursor whose state only answered moves change, it does not matter whether the marked calls
are made. -/
theorem unmarkedAnswers_eq {c : Cursor σ ε} (hc : ∀ q s,
    q.isMove = false ∨ (c.perform q s).1.isOk = false → (c.perform q s).2 = s)
    {calls : List (Call × Bool)} {s : σ} (h : c.MarksSpare calls s) :
    c.unmarkedAnswers calls s = c.answers (unmarked calls) s ∧
      c.after (calls.map Prod.fst) s = c.after (unmarked calls) s := by
  induction calls generalizing s with
  | nil => exact ⟨rfl, rfl⟩
  | cons call calls ih =>
    rcases call with ⟨q, _ | _⟩
    · obtain ⟨hanswers, hafter⟩ := ih h.2
      refine ⟨?_, hafter⟩
      rw [unmarkedAnswers, hanswers]
      rfl
    · have hstay := hc q s (h.1 rfl)
      obtain ⟨hanswers, hafter⟩ := ih h.2
      rw [hstay] at hanswers hafter
      rw [unmarkedAnswers, List.map_cons, after, hstay]
      exact ⟨hanswers, hafter⟩

end Cursor
end IonDocument
