import IonDocument.Cursor
import IonDocument.ReadError

/-! # Dialogues with a cursor

A dialogue is a tree of looks and calls. What comes after a call sees only the answer of a
successful one: a failed call ends the run with its own error, in the state that it left. So
whatever holds of all dialogues holds of everything that is read through a cursor.
-/
namespace IonDocument

inductive Dialogue (α : Type) where
  | done (a : α)
  | fail (f : Fault)
  | unfinished
  | look (next : View → Dialogue α)
  | call (c : Call) (next : c.Answer → Dialogue α)

namespace Dialogue
variable {α β γ σ ε : Type}

def bind : Dialogue α → (α → Dialogue β) → Dialogue β
  | .done a, f => f a
  | .fail e, _ => .fail e
  | .unfinished, _ => .unfinished
  | .look next, f => .look fun v => (next v).bind f
  | .call c next, f => .call c fun a => (next a).bind f

instance : Monad Dialogue where
  pure := .done
  bind := bind

def observe : Dialogue View := .look .done

def ask (c : Call) : Dialogue c.Answer := .call c .done

theorem bind_assoc (p : Dialogue α) (f : α → Dialogue β) (g : β → Dialogue γ) :
    (p.bind f).bind g = p.bind fun a => (f a).bind g := by
  induction p with
  | done a => rfl
  | fail e => rfl
  | unfinished => rfl
  | look next ih => exact congrArg look (funext ih)
  | call c next ih => exact congrArg (call c) (funext ih)

theorem bind_done (p : Dialogue α) : p.bind .done = p := by
  induction p with
  | done a => rfl
  | fail e => rfl
  | unfinished => rfl
  | look next ih => exact congrArg look (funext ih)
  | call c next ih => exact congrArg (call c) (funext ih)

instance : LawfulMonad Dialogue :=
  LawfulMonad.mk' Dialogue bind_done (fun _ _ => rfl) bind_assoc

def run (c : Cursor σ ε) : Dialogue α → σ → Outcome ε α × σ
  | .done a, s => (.ok a, s)
  | .fail f, s => (.error (.fault f), s)
  | .unfinished, s => (.unfinished, s)
  | .look next, s => (next (c.view s)).run c s
  | .call q next, s =>
    match c.perform q s with
    | (.ok a, s') => (next a).run c s'
    | (.error e, s') => (.error (.cursor e), s')

theorem run_bind (c : Cursor σ ε) (p : Dialogue α) (f : α → Dialogue β) (s : σ) :
    (p >>= f).run c s = Outcome.andThen (p.run c s) fun a s' => (f a).run c s' := by
  induction p generalizing s with
  | done a => rfl
  | fail e => rfl
  | unfinished => rfl
  | look next ih => exact ih (c.view s) s
  | call q next ih =>
    change (Dialogue.call q fun a => (next a).bind f).run c s = _
    simp only [run]
    split
    · exact ih _ _
    · rfl

@[simp] theorem run_pure (c : Cursor σ ε) (a : α) (s : σ) :
    (pure a : Dialogue α).run c s = (.ok a, s) := rfl

@[simp] theorem run_fail (c : Cursor σ ε) (f : Fault) (s : σ) :
    (Dialogue.fail f : Dialogue α).run c s = (.error (.fault f), s) := rfl

@[simp] theorem run_unfinished (c : Cursor σ ε) (s : σ) :
    (Dialogue.unfinished : Dialogue α).run c s = (.unfinished, s) := rfl

@[simp] theorem run_observe (c : Cursor σ ε) (s : σ) :
    observe.run c s = (.ok (c.view s), s) := rfl

theorem run_ask_ok {c : Cursor σ ε} {q : Call} {s s' : σ} {a : q.Answer}
    (h : c.perform q s = (.ok a, s')) : (ask q).run c s = (.ok a, s') := by
  simp [ask, run, h]

theorem run_ask_error {c : Cursor σ ε} {q : Call} {s s' : σ} {e : ε}
    (h : c.perform q s = (.error e, s')) : (ask q).run c s = (.error (.cursor e), s') := by
  simp [ask, run, h]

/-- Repeats a step until it gives nothing more, at most `n` times, and collects what it gave
behind what was collected before, in reverse. -/
def gather (step : Dialogue (Option α)) : Nat → List α → Dialogue (List α)
  | 0, _ => .unfinished
  | n + 1, got => do
    match ← step with
    | none => return got.reverse
    | some a => gather step n (a :: got)

end Dialogue
end IonDocument
