import IonDocument.Proofs.Dialogue.Simulation

/-! # Cursors that count

A counting cursor keeps how often a payload was read or a container was stepped into, also where
this failed. The symbol table that it shows may depend on the number. Apart from that it is the
cursor that it counts for.
-/
namespace IonDocument
variable {σ ε : Type}

/-- Whether a call uses up the value that the cursor is on. -/
def Call.isUse : Call → Bool
  | .read _ => true
  | .stepIn => true
  | _ => false

namespace Cursor

def counting (c : Cursor σ ε) (table : σ → Nat → Table) : Cursor (σ × Nat) ε where
  view s := { c.view s.1 with table := table s.1 s.2 }
  annotations s := c.annotations s.1
  fieldName s := c.fieldName s.1
  advance s := match c.advance s.1 with | (a, t) => (a, t, s.2)
  stepIn s := match c.stepIn s.1 with | (a, t) => (a, t, s.2 + 1)
  stepOut s := match c.stepOut s.1 with | (a, t) => (a, t, s.2)
  read k s := match c.read k s.1 with | (a, t) => (a, t, s.2 + 1)

theorem perform_counting (c : Cursor σ ε) (table : σ → Nat → Table) (q : Call) (s : σ × Nat) :
    (c.counting table).perform q s = ((c.perform q s.1).1, (c.perform q s.1).2,
      s.2 + if q.isUse then 1 else 0) := by
  cases q <;> rfl

/-- With the tables of the cursor itself, counting makes no difference. -/
theorem simulates_counting (c : Cursor σ ε) :
    Simulates (c.counting fun s _ => (c.view s).table) c fun s t => s.1 = t where
  view := by
    rintro s _ rfl
    rfl
  annotations := by
    rintro s _ rfl
    rfl
  fieldName := by
    rintro s _ rfl
    rfl
  advance := by
    rintro s _ rfl
    exact ⟨rfl, rfl⟩
  stepIn := by
    rintro s _ rfl
    exact ⟨rfl, rfl⟩
  stepOut := by
    rintro s _ rfl
    exact ⟨rfl, rfl⟩
  read := by
    rintro k s _ rfl
    exact ⟨rfl, rfl⟩

end Cursor
end IonDocument
