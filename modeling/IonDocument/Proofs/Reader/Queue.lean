import IonDocument.Proofs.Reader.Pull
import IonDocument.Proofs.Reader.Session

/-! # A reader is a queue

Seen from outside, a reader over a walk is a first-in first-out queue of the children that are
left on its level. The queue also fixes where the walk stands: a child that was only looked at is
already passed, and so is the end of the level once it was looked at.
-/
namespace IonDocument

/-- The elements to be handed out, and whether a request has looked at the front of them. -/
structure Queue where
  waiting : List Element
  looked : Bool

namespace Queue

def respond {ε : Type} : Machine ε Queue
  | .hasNext, ⟨es, _⟩ => (.ok (!es.isEmpty), ⟨es, true⟩)
  | .peek, ⟨es, _⟩ => (.ok es.head?, ⟨es, true⟩)
  | .next, ⟨[], _⟩ => (.error .exhausted, ⟨[], true⟩)
  | .next, ⟨e :: es, _⟩ => (.ok e, ⟨es, false⟩)
  | .next?, ⟨[], _⟩ => (.ok none, ⟨[], true⟩)
  | .next?, ⟨e :: es, _⟩ => (.ok (some e), ⟨es, false⟩)
  | .remove, queue => (.error (.unsupported "remove"), queue)

theorem fst_respond_next? {ε : Type} (queue : Queue) :
    (respond (ε := ε) .next? queue).1 = .ok queue.waiting.head? := by
  rcases queue with ⟨_ | ⟨e, es⟩, looked⟩ <;> rfl

theorem waiting_respond_next? {ε : Type} (queue : Queue) :
    (respond (ε := ε) .next? queue).2.waiting = queue.waiting.tail := by
  rcases queue with ⟨_ | ⟨e, es⟩, looked⟩ <;> rfl

/-- What a reader holds while it stands for a queue. -/
def buffer : Queue → Buffer
  | ⟨_, false⟩ => .empty
  | ⟨e :: _, true⟩ => .holding e
  | ⟨[], true⟩ => .ended

/-- The level of a reader that stands for a queue and started on `f`: on the last child that was
handed out or is held, or behind all of them when the end was looked at. -/
def level (f : Level) : Queue → Level
  | ⟨[], true⟩ => f.finish
  | ⟨es, looked⟩ => f.pass (f.remaining.length - es.length + looked.toNat)

/-- The reader that stands for a queue, without a limit, and started on the walk `w`. -/
def reader (w : Walk) (queue : Queue) : Reader Walk :=
  ⟨w.withTop (queue.level w.top), none, w.outer.length, queue.buffer⟩

theorem level_drop {f : Level} {es : List Element} {n : Nat} (h : f.remaining.drop n = es)
    (hn : n ≤ f.remaining.length) : level f ⟨es, false⟩ = f.pass n := by
  have hlevel : level f ⟨es, false⟩ = f.pass (f.remaining.length - es.length) := by
    cases es <;> rfl
  have hlen := congrArg List.length h
  rw [List.length_drop] at hlen
  rw [hlevel]
  congr 1
  omega

theorem level_looked {f : Level} {e : Element} {es : List Element} {n : Nat}
    (h : f.remaining.drop n = e :: es) : level f ⟨e :: es, true⟩ = f.pass (n + 1) := by
  have hlen := congrArg List.length h
  rw [List.length_drop] at hlen
  simp only [level, List.length_cons, Bool.toNat_true] at hlen ⊢
  congr 1
  omega

theorem reader_drop {w : Walk} {es : List Element} {n : Nat} (h : w.top.remaining.drop n = es)
    (hn : n ≤ w.top.remaining.length) :
    reader w ⟨es, false⟩ = ⟨w.withTop (w.top.pass n), none, w.outer.length, .empty⟩ := by
  unfold reader
  rw [level_drop h hn]
  rfl

end Queue

namespace Reader
open Queue
variable {w : Walk} {fuel n : Nat}

/-- At the end of the level a pull finishes it. -/
theorem pull_reader_nil (fuel : Nat) (hn : n ≤ w.top.remaining.length)
    (h : w.top.remaining.drop n = []) :
    (reader w ⟨[], false⟩).pull Walk.cursor fuel = (.ok none, reader w ⟨[], true⟩) := by
  have hrun := run_pullAt_nil (w := w.withTop (w.top.pass n)) none fuel
    ((Level.remaining_pass w.top n).trans h)
  rw [reader_drop h hn]
  exact pull_of_none (hrun.trans (congrArg (Prod.mk _) (w.withTop_finish n)))

/-- Otherwise it takes the front of the queue. -/
theorem pull_reader_cons {e : Element} {es : List Element} (hfuel : itemsSize w.top.remaining < fuel)
    (hn : n ≤ w.top.remaining.length) (h : w.top.remaining.drop n = e :: es) :
    (reader w ⟨e :: es, false⟩).pull Walk.cursor fuel = (.ok (some e), reader w ⟨es, false⟩) := by
  have he : e ∈ w.top.remaining := List.mem_of_mem_drop (h ▸ List.mem_cons_self)
  have hsize := Nat.lt_of_le_of_lt (size_le_itemsSize he) hfuel
  have hrun := run_pullAt_cons (w := w.withTop (w.top.pass n))
    ((Level.remaining_pass w.top n).trans h) hsize
  have hrest := Children.drop_succ_of_drop_eq_cons h
  have hlt := List.length_lt_of_drop_ne_nil (h ▸ List.cons_ne_nil e es)
  rw [reader_drop h hn, reader_drop hrest hlt]
  exact pull_of_some (hrun.trans (congrArg (Prod.mk _) (w.withTop_pass_one n)))

/-- Holding the front of a queue is having looked at it. -/
theorem reader_holding {e : Element} {es : List Element} (h : w.top.remaining.drop n = e :: es) :
    reader w ⟨e :: es, true⟩ = { reader w ⟨es, false⟩ with buffer := .holding e } := by
  have hrest := Children.drop_succ_of_drop_eq_cons h
  have hlt := List.length_lt_of_drop_ne_nil (h ▸ List.cons_ne_nil e es)
  rw [reader_drop hrest hlt]
  unfold reader
  rw [level_looked h]
  rfl

section
variable (hfuel : itemsSize w.top.remaining < fuel) {queue : Queue}
  (hn : n ≤ w.top.remaining.length) (h : w.top.remaining.drop n = queue.waiting)
include hfuel hn h

theorem hasNext_reader : (reader w queue).hasNext Walk.cursor fuel =
    (.ok (!queue.waiting.isEmpty), reader w ⟨queue.waiting, true⟩) := by
  rcases queue with ⟨es, looked⟩
  cases looked with
  | false =>
    change Outcome.andThen ((reader w ⟨es, false⟩).pull Walk.cursor fuel) _ = _
    cases es with
    | nil =>
      rw [pull_reader_nil fuel hn h]
      rfl
    | cons e es =>
      rw [pull_reader_cons hfuel hn h, reader_holding h]
      rfl
  | true => cases es <;> rfl

theorem next_reader : (reader w queue).next Walk.cursor fuel =
    ((Queue.respond .next queue).1, reader w (Queue.respond (ε := WalkError) .next queue).2) := by
  rcases queue with ⟨es, looked⟩
  cases looked with
  | false =>
    change Outcome.andThen ((reader w ⟨es, false⟩).pull Walk.cursor fuel) _ = _
    cases es with
    | nil =>
      rw [pull_reader_nil fuel hn h]
      rfl
    | cons e es =>
      rw [pull_reader_cons hfuel hn h]
      rfl
  | true =>
    cases es with
    | nil => rfl
    | cons e es =>
      rw [reader_holding h]
      rfl

theorem respond_reader (q : Request) : respond Walk.cursor fuel q (reader w queue) =
    ((Queue.respond q queue).1, reader w (Queue.respond (ε := WalkError) q queue).2) := by
  cases q with
  | hasNext => exact hasNext_reader hfuel hn h
  | peek =>
    change Outcome.andThen ((reader w queue).hasNext Walk.cursor fuel) _ = _
    rw [hasNext_reader hfuel hn h]
    rcases queue with ⟨es, looked⟩
    cases es <;> rfl
  | next => exact next_reader hfuel hn h
  | next? =>
    have hnext := next_reader hfuel hn h
    change (reader w queue).next? Walk.cursor fuel = _
    unfold next?
    rw [hnext]
    rcases queue with ⟨es, looked⟩
    cases es <;> rfl
  | remove => rfl

end

/-- Whatever is requested, a part of the level is left. -/
theorem respond_waiting {ε : Type} (q : Request) {queue : Queue} {all : List Element}
    (h : ∃ n ≤ all.length, all.drop n = queue.waiting) :
    ∃ n ≤ all.length, all.drop n = (Queue.respond (ε := ε) q queue).2.waiting := by
  obtain ⟨n, hn, h⟩ := h
  rcases queue with ⟨es, looked⟩
  change all.drop n = es at h
  have hpop : ∀ e rest, es = e :: rest → ∃ n ≤ all.length, all.drop n = rest := by
    rintro e rest rfl
    have hlt := List.length_lt_of_drop_ne_nil (h ▸ List.cons_ne_nil e rest)
    exact ⟨n + 1, hlt, Children.drop_succ_of_drop_eq_cons h⟩
  cases q with
  | hasNext => exact ⟨n, hn, h⟩
  | peek => exact ⟨n, hn, h⟩
  | next =>
    cases es with
    | nil => exact ⟨n, hn, h⟩
    | cons e rest => exact hpop e rest rfl
  | next? =>
    cases es with
    | nil => exact ⟨n, hn, h⟩
    | cons e rest => exact hpop e rest rfl
  | remove => exact ⟨n, hn, h⟩

/-- The reader that stands for a queue of children that are left on the level of `w`. -/
structure StandsFor (w : Walk) (r : Reader Walk) (queue : Queue) : Prop where
  eq_reader : r = reader w queue
  left : ∃ n ≤ w.top.remaining.length, w.top.remaining.drop n = queue.waiting

theorem standsFor_start (w : Walk) :
    StandsFor w (start Walk.cursor none w) ⟨w.top.remaining, false⟩ :=
  ⟨(reader_drop (n := 0) rfl (Nat.zero_le _)).symm, 0, Nat.zero_le _, rfl⟩

section
variable (hfuel : itemsSize w.top.remaining < fuel) {r : Reader Walk} {queue : Queue}
  (h : StandsFor w r queue)
include hfuel h

theorem StandsFor.respond (q : Request) :
    (Reader.respond Walk.cursor fuel q r).1 = (Queue.respond q queue).1 ∧
      StandsFor w (Reader.respond Walk.cursor fuel q r).2
        (Queue.respond (ε := WalkError) q queue).2 := by
  obtain ⟨rfl, n, hn, hdrop⟩ := h
  rw [respond_reader hfuel hn hdrop q]
  exact ⟨rfl, rfl, respond_waiting q ⟨n, hn, hdrop⟩⟩

theorem StandsFor.serve (requests : List Request) :
    (IonDocument.serve (Reader.respond Walk.cursor fuel) requests r).1 =
        (IonDocument.serve Queue.respond requests queue).1 ∧
      StandsFor w (IonDocument.serve (Reader.respond Walk.cursor fuel) requests r).2
        (IonDocument.serve (ε := WalkError) Queue.respond requests queue).2 :=
  serve_simulates (fun q _ _ h => h.respond hfuel q) requests h

end

/-- A reader without a limit, started on any walk, gives the replies of a queue of the children that
remain there, and after every session it is the reader that stands for what is left of the queue. -/
theorem serve_walk_eq_queue (w : Walk) {fuel : Nat} (hfuel : itemsSize w.top.remaining < fuel)
    (requests : List Request) :
    serve (respond Walk.cursor fuel) requests (start Walk.cursor none w) =
      ((serve Queue.respond requests ⟨w.top.remaining, false⟩).1,
        reader w (serve (ε := WalkError) Queue.respond requests ⟨w.top.remaining, false⟩).2) := by
  obtain ⟨hreplies, hend⟩ := (standsFor_start w).serve hfuel requests
  exact Prod.ext hreplies hend.eq_reader

/-- The first child of a list is already passed; the others are queued. -/
theorem serve_in_list :
    let one := Element.ofScalar .int 1
    let two := Element.ofValue (.list [one])
    let w : Walk := ⟨⟨.items [one, two, one], .on 0⟩, [⟨.items [two], .on 0⟩], .system⟩
    let session := serve (respond Walk.cursor 5) [.peek, .remove, .next, .next?, .hasNext, .next]
      (start Walk.cursor none w)
    itemsSize w.top.remaining < 5 ∧
      session.1 = [⟨.peek, .ok (some two)⟩, ⟨.remove, .error (.unsupported "remove")⟩,
        ⟨.next, .ok two⟩, ⟨.next?, .ok (some one)⟩, ⟨.hasNext, .ok false⟩,
        ⟨.next, .error .exhausted⟩] ∧
      session.2.state = w.withTop w.top.finish := by
  intro one two w session
  have hsize : itemsSize w.top.remaining < 5 := by decide
  have hsession := serve_walk_eq_queue w hsize [.peek, .remove, .next, .next?, .hasNext, .next]
  exact ⟨hsize, congrArg Prod.fst hsession, congrArg (·.2.state) hsession⟩

end Reader
end IonDocument
