import IonDocument.Reader

/-! # Sessions

A session is any list of requests, answered one after another by a machine that changes its state
with each of them. Two machines that answer alike in related states, and stay related, answer
every session alike.
-/
namespace IonDocument

/-- What a reader can be asked for. -/
inductive Request where
  | hasNext
  | peek
  | next
  | next?
  | remove
  deriving DecidableEq

@[reducible] def Request.Answer : Request → Type
  | .hasNext => Bool
  | .peek => Option Element
  | .next => Element
  | .next? => Option Element
  | .remove => Unit

abbrev Reply (ε : Type) := (q : Request) × Outcome ε q.Answer

abbrev Machine (ε S : Type) := (q : Request) → S → Outcome ε q.Answer × S

section
variable {ε S T : Type}

/-- The replies to a session, and the state after it. -/
def serve (m : Machine ε S) : List Request → S → List (Reply ε) × S
  | [], s => ([], s)
  | q :: requests, s =>
    let (o, s') := m q s
    let (replies, s'') := serve m requests s'
    (⟨q, o⟩ :: replies, s'')

theorem serve_cons (m : Machine ε S) (q : Request) (requests : List Request) (s : S) :
    serve m (q :: requests) s =
      (⟨q, (m q s).1⟩ :: (serve m requests (m q s).2).1, (serve m requests (m q s).2).2) := rfl

theorem serve_simulates {m : Machine ε S} {n : Machine ε T} {R : S → T → Prop}
    (h : ∀ q s t, R s t → (m q s).1 = (n q t).1 ∧ R (m q s).2 (n q t).2)
    (requests : List Request) {s : S} {t : T} (hR : R s t) :
    (serve m requests s).1 = (serve n requests t).1 ∧
      R (serve m requests s).2 (serve n requests t).2 := by
  induction requests generalizing s t with
  | nil => exact ⟨rfl, hR⟩
  | cons q requests ih =>
    obtain ⟨ho, hR'⟩ := h q s t hR
    obtain ⟨hreplies, hend⟩ := ih hR'
    rw [serve_cons, serve_cons, ho, hreplies]
    exact ⟨rfl, hend⟩

end

namespace Reader
variable {σ ε : Type}

def respond (c : Cursor σ ε) (fuel : Nat) : Machine ε (Reader σ)
  | .hasNext, r => r.hasNext c fuel
  | .peek, r => r.peek c fuel
  | .next, r => r.next c fuel
  | .next?, r => r.next? c fuel
  | .remove, r => r.remove

end Reader
end IonDocument
