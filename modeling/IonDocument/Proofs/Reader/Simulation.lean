import IonDocument.Proofs.Dialogue.Simulation
import IonDocument.Proofs.Reader.Queue
import IonDocument.Proofs.Walk.Faulty

/-! # Readers over cursors in simulation

Readers over two cursors in simulation answer every session alike. What is shown of readers over
a walk in memory thus holds over every cursor that behaves like a walk of the same document, a
decoder for instance: its reader delivers just that document.
-/
namespace IonDocument

/-- A faulty cursor that refuses nothing behaves like the walk behind it. -/
theorem Faulty.simulates_walk :
    Simulates (Faulty.cursor (fun _ _ _ => none) id) Walk.cursor fun s w => s.walk = w := by
  have hanswer : ∀ q (s : Faulty), Faulty.answer (fun _ _ _ => none) id q s =
      Walk.cursor.perform q s.walk := by
    intro q s
    unfold Faulty.answer
    rcases Walk.cursor.perform q s.walk with ⟨a | e, w⟩ <;> rfl
  have hattempt : ∀ q (s : Faulty),
      (Faulty.attempt (fun _ _ _ => none) id q s).1 = (Walk.cursor.perform q s.walk).1 ∧
      (Faulty.attempt (fun _ _ _ => none) id q s).2.walk = (Walk.cursor.perform q s.walk).2 := by
    intro q s
    unfold Faulty.attempt
    rw [hanswer]
    exact ⟨rfl, rfl⟩
  constructor
  · rintro s _ rfl
    rfl
  · rintro s _ rfl
    exact congrArg Prod.fst (hanswer .annotations s)
  · rintro s _ rfl
    exact congrArg Prod.fst (hanswer .fieldName s)
  · rintro s _ rfl
    exact hattempt .advance s
  · rintro s _ rfl
    exact hattempt .stepIn s
  · rintro s _ rfl
    exact hattempt .stepOut s
  · rintro k s _ rfl
    exact hattempt (.read k) s

namespace Reader
variable {σ τ ε : Type} {c : Cursor σ ε} {d : Cursor τ ε} {R : σ → τ → Prop}

/-- Readers that differ in the states of their cursors only, and these are related. -/
structure Alike (R : σ → τ → Prop) (r : Reader σ) (u : Reader τ) : Prop where
  state : R r.state u.state
  limit : r.limit = u.limit
  depth : r.depth = u.depth
  buffer : r.buffer = u.buffer

theorem Alike.withState {r : Reader σ} {u : Reader τ} (h : Alike R r u) {s : σ} {t : τ}
    (hR : R s t) : Alike R { r with state := s } { u with state := t } :=
  ⟨hR, h.limit, h.depth, h.buffer⟩

theorem Alike.withBuffer {r : Reader σ} {u : Reader τ} (h : Alike R r u) (b : Buffer) :
    Alike R { r with buffer := b } { u with buffer := b } := ⟨h.state, h.limit, h.depth, rfl⟩

section
variable (h : Simulates c d R) (fuel : Nat) {r : Reader σ} {u : Reader τ} (hr : Alike R r u)
include h

theorem alike_start (limit : Option Nat) {s : σ} {t : τ} (hR : R s t) :
    Alike R (start c limit s) (start d limit t) :=
  ⟨hR, rfl, congrArg View.depth (h.view s t hR), rfl⟩

include hr

theorem alike_pull : Matches (Alike R) (r.pull c fuel) (u.pull d fuel) := by
  have hrun := Dialogue.run_simulates h (pullAt r.limit fuel r.depth) hr.state
  obtain ⟨o, s, t, hc, hd, hR⟩ := hrun.exists_eq
  rw [hr.limit, hr.depth] at hd
  unfold pull
  rw [hc, hd]
  have hstate : Alike R { r with state := s } { u with state := t } := hr.withState hR
  rcases o with (_ | e) | e | _
  · exact ⟨rfl, hstate.withBuffer .ended⟩
  · exact ⟨rfl, hstate⟩
  · exact ⟨rfl, hstate⟩
  · exact ⟨rfl, hstate⟩

theorem alike_hasNext : Matches (Alike R) (r.hasNext c fuel) (u.hasNext d fuel) := by
  unfold hasNext
  rw [← hr.buffer]
  cases r.buffer with
  | ended => exact ⟨rfl, hr⟩
  | holding e => exact ⟨rfl, hr⟩
  | empty =>
    refine (alike_pull h fuel hr).andThen ?_
    intro o r' u' hr'
    cases o with
    | none => exact ⟨rfl, hr'⟩
    | some e => exact ⟨rfl, hr'.withBuffer (.holding e)⟩

theorem alike_next : Matches (Alike R) (r.next c fuel) (u.next d fuel) := by
  unfold next
  rw [← hr.buffer]
  cases r.buffer with
  | ended => exact ⟨rfl, hr⟩
  | holding e => exact ⟨rfl, hr.withBuffer .empty⟩
  | empty =>
    refine (alike_pull h fuel hr).andThen ?_
    intro o r' u' hr'
    cases o with
    | none => exact ⟨rfl, hr'⟩
    | some e => exact ⟨rfl, hr'⟩

theorem alike_peek : Matches (Alike R) (r.peek c fuel) (u.peek d fuel) := by
  refine (alike_hasNext h fuel hr).andThen ?_
  intro _ r' u' hr'
  exact ⟨by rw [hr'.buffer], hr'⟩

theorem alike_next? : Matches (Alike R) (r.next? c fuel) (u.next? d fuel) := by
  obtain ⟨o, r', u', hc, hd, hr'⟩ := (alike_next h fuel hr).exists_eq
  unfold next?
  rw [hc, hd]
  rcases o with e | e | _
  · exact ⟨rfl, hr'⟩
  · cases e <;> exact ⟨rfl, hr'⟩
  · exact ⟨rfl, hr'⟩

theorem alike_respond (q : Request) :
    Matches (Alike R) (respond c fuel q r) (respond d fuel q u) := by
  cases q with
  | hasNext => exact alike_hasNext h fuel hr
  | peek => exact alike_peek h fuel hr
  | next => exact alike_next h fuel hr
  | next? => exact alike_next? h fuel hr
  | remove => exact ⟨rfl, hr⟩

theorem alike_serve (requests : List Request) :
    (serve (respond c fuel) requests r).1 = (serve (respond d fuel) requests u).1 ∧
      Alike R (serve (respond c fuel) requests r).2 (serve (respond d fuel) requests u).2 :=
  serve_simulates (fun q _ _ hr => alike_respond h fuel hr q) requests (R := Alike R) hr

theorem alike_collect (n : Nat) : Matches (Alike R) (r.collect c fuel n) (u.collect d fuel n) := by
  induction n generalizing r u with
  | zero => exact ⟨rfl, hr⟩
  | succ n ih =>
    refine (alike_next? h fuel hr).andThen ?_
    intro o r' u' hr'
    cases o with
    | none => exact ⟨rfl, hr'⟩
    | some e =>
      refine (ih hr').andThen ?_
      intro es r'' u'' hr''
      exact ⟨rfl, hr''⟩

end

/-- Collecting takes all that waits. -/
theorem StandsFor.collect {w : Walk} {fuel n : Nat} (hfuel : itemsSize w.top.remaining < fuel)
    {r : Reader Walk} {queue : Queue} (h : StandsFor w r queue) (hn : queue.waiting.length < n) :
    (r.collect Walk.cursor fuel n).1 = .ok queue.waiting := by
  induction n generalizing r queue with
  | zero => cases hn
  | succ n ih =>
    obtain ⟨hreply, hrest⟩ := h.respond hfuel .next?
    change (r.next? Walk.cursor fuel).1 = _ at hreply
    change StandsFor w (r.next? Walk.cursor fuel).2 _ at hrest
    rw [Queue.fst_respond_next?] at hreply
    rcases hnext : r.next? Walk.cursor fuel with ⟨o, r'⟩
    rw [hnext] at hreply hrest
    obtain rfl := hreply
    simp only [Reader.collect, hnext]
    cases hwaiting : queue.waiting with
    | nil => rfl
    | cons e rest =>
      have htail : (Queue.respond (ε := WalkError) .next? queue).2.waiting = rest := by
        rw [Queue.waiting_respond_next?, hwaiting]
        rfl
      have hlen : rest.length < n := by
        rw [hwaiting] at hn
        exact Nat.lt_of_succ_lt_succ hn
      have hcollect := ih hrest (htail ▸ hlen)
      rw [htail] at hcollect
      simp only [List.head?_cons, Outcome.andThen_ok]
      rcases hall : r'.collect Walk.cursor fuel n with ⟨o, r''⟩
      rw [hall] at hcollect
      obtain rfl : o = .ok rest := hcollect
      rfl

/-- Over two cursors in simulation loading ends alike, and readers answer alike and stay alike,
under any limit. Over a cursor that simulates a walk of a document, a reader delivers that
document. -/
theorem load_and_serve_simulated :
    (∀ {σ τ ε : Type} {c : Cursor σ ε} {d : Cursor τ ε} {R : σ → τ → Prop}, Simulates c d R →
      ∀ {s : σ} {t : τ}, R s t → ∀ (limit : Option Nat) (fuel : Nat),
        Matches R ((load limit fuel).run c s) ((load limit fuel).run d t) ∧
        ∀ requests,
          (serve (respond c fuel) requests (start c limit s)).1 =
            (serve (respond d fuel) requests (start d limit t)).1 ∧
          Alike R (serve (respond c fuel) requests (start c limit s)).2
            (serve (respond d fuel) requests (start d limit t)).2) ∧
    ∀ {σ : Type} {c : Cursor σ WalkError} {R : σ → Walk → Prop}, Simulates c Walk.cursor R →
      ∀ {s : σ} {document : List Element} {table : Table}, R s (Walk.start document table) →
      ∀ {fuel : Nat}, itemsSize document < fuel →
        ((start c none s).collect c fuel (document.length + 1)).1 = .ok document ∧
        ∀ requests, (serve (respond c fuel) requests (start c none s)).1 =
          (serve Queue.respond requests ⟨document, false⟩).1 := by
  refine ⟨?_, ?_⟩
  · intro σ τ ε c d R h s t hR limit fuel
    exact ⟨Dialogue.run_simulates h _ hR, alike_serve h fuel (alike_start h limit hR)⟩
  · intro σ c R h s document table hR fuel hfuel
    have hstart := alike_start h none hR
    have hqueue : StandsFor (Walk.start document table) _ ⟨document, false⟩ := standsFor_start _
    refine ⟨?_, ?_⟩
    · have hcollect := alike_collect h fuel hstart (document.length + 1)
      exact hcollect.1.trans (hqueue.collect hfuel (Nat.lt_succ_self _))
    · intro requests
      exact (alike_serve h fuel hstart requests).1.trans (hqueue.serve hfuel requests).1

/-- A cursor that keeps a record of its attempts and refuses none of them. -/
theorem collect_with_record :
    let one := Element.ofScalar .int 1
    let document := [.ofValue (.list [one]), .ofValue (.null (.container .struct)), one]
    let c := Faulty.cursor (fun _ _ _ => none) id
    let R := fun (s : Faulty) (w : Walk) => s.walk = w
    let s : Faulty := ⟨Walk.start document .system, []⟩
    Simulates c Walk.cursor R ∧ R s (Walk.start document .system) ∧ itemsSize document < 5 ∧
      Matches R ((load (some 0) 5).run c s) ((load (some 0) 5).run Walk.cursor s.walk) ∧
      ((start c none s).collect c 5 4).1 = .ok document := by
  intro one document c R s
  have hR : R s (Walk.start document .system) := rfl
  have hsize : itemsSize document < 5 := by decide
  have hsimulates : Simulates c Walk.cursor R := Faulty.simulates_walk
  exact ⟨hsimulates, hR, hsize, (load_and_serve_simulated.1 hsimulates hR (some 0) 5).1,
    (load_and_serve_simulated.2 hsimulates hR hsize).1⟩

end Reader
end IonDocument
