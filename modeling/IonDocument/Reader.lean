import IonDocument.Loading

/-! # Readers

A reader hands out the elements on one level of a document, one by one, and may read one of them
ahead. The end of the level is remembered, and the cursor is not asked again. After a failure
inside a container the cursor is deeper than the reader's level; the reader then never moves it
again.
-/
namespace IonDocument

inductive Buffer where
  | empty
  | holding (e : Element)
  | ended

def Buffer.element? : Buffer → Option Element
  | .holding e => some e
  | _ => none

structure Reader (σ : Type) where
  state : σ
  limit : Option Nat
  depth : Nat
  buffer : Buffer

namespace Reader
variable {σ ε : Type}

def start (c : Cursor σ ε) (limit : Option Nat) (s : σ) : Reader σ :=
  ⟨s, limit, (c.view s).depth, .empty⟩

/-- Advances at the reader's depth and loads what the cursor lands on. -/
def pullAt (limit : Option Nat) (fuel depth : Nat) : Dialogue (Option Element) := do
  let view ← Dialogue.observe
  if view.depth = depth then
    match ← Dialogue.ask .advance with
    | none => return none
    | some _ => return some (← load limit fuel)
  else .fail (.stranded view.depth depth)

variable (c : Cursor σ ε) (fuel : Nat)

def pull (r : Reader σ) : Outcome ε (Option Element) × Reader σ :=
  match (pullAt r.limit fuel r.depth).run c r.state with
  | (.ok none, s) => (.ok none, { r with state := s, buffer := .ended })
  | (o, s) => (o, { r with state := s })

/-- Whether there is another element. It is read ahead if it was not before. -/
def hasNext (r : Reader σ) : Outcome ε Bool × Reader σ :=
  match r.buffer with
  | .ended => (.ok false, r)
  | .holding _ => (.ok true, r)
  | .empty => Outcome.andThen (r.pull c fuel) fun
    | some e, r' => (.ok true, { r' with buffer := .holding e })
    | none, r' => (.ok false, r')

def next (r : Reader σ) : Outcome ε Element × Reader σ :=
  match r.buffer with
  | .ended => (.error .exhausted, r)
  | .holding e => (.ok e, { r with buffer := .empty })
  | .empty => Outcome.andThen (r.pull c fuel) fun
    | some e, r' => (.ok e, r')
    | none, r' => (.error .exhausted, r')

/-- The next element, which stays where it is. -/
def peek (r : Reader σ) : Outcome ε (Option Element) × Reader σ :=
  Outcome.andThen (r.hasNext c fuel) fun _ r' => (.ok r'.buffer.element?, r')

/-- Hands out the next element, or nothing at the end. -/
def next? (r : Reader σ) : Outcome ε (Option Element) × Reader σ :=
  match r.next c fuel with
  | (.error .exhausted, r') => (.ok none, r')
  | (o, r') => (o.map some, r')

def remove (r : Reader σ) : Outcome ε Unit × Reader σ := (.error (.unsupported "remove"), r)

/-- Everything up to the end, in at most `n` steps. -/
def collect : Nat → Reader σ → Outcome ε (List Element) × Reader σ
  | 0, r => (.unfinished, r)
  | n + 1, r => Outcome.andThen (r.next? c fuel) fun
    | none, r' => (.ok [], r')
    | some e, r' => Outcome.andThen (collect n r') fun es r'' => (.ok (e :: es), r'')

end Reader
end IonDocument
