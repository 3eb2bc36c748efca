import Mathlib.Data.List.Forall2
import IonDocument.Proofs.Reader.Pull
import IonDocument.Proofs.Reader.Session
import IonDocument.Proofs.Walk.Faulty

/-! # Accounting for every element

Behind a faulty cursor a reader settles each element that an advance of its own landed on exactly
once and in order: it hands out a copy, or holds it, or reports an error. Errors that touch no
element are not entered; those are the end, a request that is not supported, a cursor left below the
reader's depth, and a failed advance at that depth.
-/
namespace IonDocument
open Dialogue
variable {ε : Type}

/-- What a session reports about one element. -/
inductive Entry (ε : Type) where
  | copy (e : Element)
  | failure (e : ReadError ε)

/-- An element is settled by its exact copy or by an error. -/
def Entry.Settles : Element → Entry ε → Prop
  | v, .copy e => e = v
  | _, .failure _ => True

/-- What leaves the reader with an answer. -/
def Request.handedOut : (q : Request) → q.Answer → Option Element
  | .next, e => some e
  | .next?, e => e
  | .hasNext, _ | .peek, _ | .remove, _ => none

namespace Faulty

/-- The entry of an error, for a reader at depth `d` that has left the cursor in `s`. -/
def failures (d : Nat) (s : Faulty) : ReadError ε → List (Entry ε)
  | .exhausted | .unsupported _ | .fault (.stranded _ _) => []
  | .cursor e => if s.advanceFailed d then [] else [.failure (.cursor e)]
  | .fault f => [.failure (.fault f)]

def entries (d : Nat) (s : Faulty) (q : Request) : Outcome ε q.Answer → List (Entry ε)
  | .ok a => (q.handedOut a).toList.map .copy
  | .error e => failures d s e
  | .unfinished => []

end Faulty

namespace Reader
open Faulty

/-- The element that is read ahead, if there is one. -/
def held {σ : Type} (r : Reader σ) : List Element := r.buffer.element?.toList

theorem held_of_buffer {σ : Type} {r : Reader σ} {b : Buffer} (hb : r.buffer = b) :
    r.held = b.element?.toList := congrArg (fun b => b.element?.toList) hb

section
variable (rule : Rule ε) (wrap : WalkError → ε) (fuel : Nat)

/-- The entries of a session, and at its end the copy that is still held. -/
def account : List Request → Reader Faulty → List (Entry ε)
  | [], r => r.held.map .copy
  | q :: requests, r =>
    let (o, r') := respond (cursor rule wrap) fuel q r
    entries r.depth r'.state q o ++ account requests r'

end

/-- Of the elements of a level, a reader has landed on some, and the rest is still ahead of it
unless its cursor was left below its own depth. -/
structure Tracks (all : List Element) (r : Reader Faulty) (landed rest : List Element) : Prop where
  split : landed ++ rest = all
  record : r.state.landed r.depth = landed
  place : r.state.walk.outer.length = r.depth → r.state.walk.top.remaining = rest

/-- What a pull does to the account. -/
inductive Pulled (all landed rest : List Element) :
    Outcome ε (Option Element) → Reader Faulty → Prop where
  | ended {r : Reader Faulty} (h : Tracks all r landed rest) (hb : r.buffer = .ended) :
    Pulled all landed rest (.ok none) r
  | copied {r : Reader Faulty} {e : Element} {rest' : List Element} (hr : rest = e :: rest')
    (h : Tracks all r (landed ++ [e]) rest') (hb : r.buffer = .empty) :
    Pulled all landed rest (.ok (some e)) r
  | excused {r : Reader Faulty} {e : ReadError ε} (h : Tracks all r landed rest)
    (hb : r.buffer = .empty) (he : failures r.depth r.state e = []) : Pulled all landed rest (.error e) r
  | spoilt {r : Reader Faulty} {e : ReadError ε} {v : Element} {rest' : List Element}
    (hr : rest = v :: rest') (h : Tracks all r (landed ++ [v]) rest') (hb : r.buffer = .empty)
    (he : failures r.depth r.state e = [.failure e]) : Pulled all landed rest (.error e) r

section
variable {rule : Rule ε} {wrap : WalkError → ε} {d : Nat} {s s' : Faulty}

/-- An answered advance puts on record what it landed on. -/
theorem landed_of_advance {k : Option Kind} (hd : s.walk.outer.length = d)
    (h : (cursor rule wrap).perform .advance s = (.ok k, s')) :
    s'.landed d = s.landed d ++ s.walk.advance.2.current?.toList ∧ s'.advanceFailed d = false := by
  have hs' : s' = (attempt rule wrap .advance s).2 := (congrArg Prod.snd h).symm
  have hanswer : (answer rule wrap .advance s).1 = .ok k := congrArg Prod.fst h
  have hok : (Faulty.record rule wrap .advance s).answered = true := by
    change (answer rule wrap .advance s).1.isOk = true
    rw [hanswer]
    rfl
  refine ⟨?_, ?_⟩
  · rw [hs', landed_attempt]
    exact congrArg (s.landed d ++ Option.toList ·) (if_pos ⟨rfl, hok, hd⟩)
  · rw [hs']
    exact decide_eq_false fun ⟨_, hno, _⟩ => Bool.false_ne_true (hno.symm.trans hok)

/-- A refused advance lands nowhere, and its error is not entered. -/
theorem landed_of_refused {e : ReadError ε} (hd : s.walk.outer.length = d)
    (h : Refused (cursor rule wrap) Faulty.walk .advance s e s') :
    s'.landed d = s.landed d ∧ failures d s' e = [] := by
  obtain ⟨⟨err, rfl, herr, _⟩, _, rfl⟩ := h
  have hanswer : (answer rule wrap .advance s).1 = .error err := herr
  have hno : (Faulty.record rule wrap .advance s).answered = false := by
    change (answer rule wrap .advance s).1.isOk = false
    rw [hanswer]
    rfl
  have hfailed : (attempt rule wrap .advance s).2.advanceFailed d = true :=
    decide_eq_true ⟨rfl, hno, hd⟩
  refine ⟨?_, if_pos hfailed⟩
  refine (landed_attempt rule wrap .advance s).trans ?_
  have hnone : (Faulty.record rule wrap .advance s).landed? d = none :=
    if_neg fun ⟨_, hok, _⟩ => Bool.false_ne_true (hno.symm.trans hok)
  rw [hnone]
  exact List.append_nil _

/-- The error of a value that was landed on is entered. -/
theorem failures_of_spoilt {limit : Option Nat} {w : Walk} {a : Element} {J : Faulty → Prop}
    {e : ReadError ε} (h : Spoilt (cursor rule wrap) Faulty.walk limit w a J e s)
    (hs : s.advanceFailed d = false) : failures d s e = [.failure e] := by
  cases h with
  | refused _ _ _ => exact if_neg (by rw [hs]; exact Bool.false_ne_true)
  | tooDeep _ _ _ _ => rfl

end

section
variable (rule : Rule ε) (wrap : WalkError → ε) {all : List Element} {fuel : Nat}
  {r : Reader Faulty} {landed rest : List Element}

theorem pulled_nil (fuel : Nat) (h : Tracks all r landed []) (hb : r.buffer = .empty)
    (hd : r.state.walk.outer.length = r.depth) :
    Pulled all landed [] (r.pull (cursor rule wrap) fuel).1 (r.pull (cursor rule wrap) fuel).2 := by
  have hplace := h.place hd
  have hends := ends_pullAt_nil (follows rule wrap) r.limit fuel rfl hplace
  rw [hd] at hends
  refine pull_elim hends ?_ ?_ ?_
  · rintro s ⟨-, hs, hadvance⟩
    have hrecord := (landed_of_advance hd hadvance).1
    rw [Walk.advance_of_nil hplace, h.record] at hrecord
    have hs' : s.walk.top.remaining = [] := by
      rw [hs]
      rfl
    exact .ended ⟨h.split, hrecord.trans (List.append_nil _), fun _ => hs'⟩ rfl
  · rintro e s ⟨he, -⟩
    cases he
  · intro e s hrefused
    obtain ⟨hrecord, hentry⟩ := landed_of_refused hd hrefused
    have hs : s.walk.top.remaining = [] := by
      rw [hrefused.place]
      exact hplace
    exact .excused ⟨h.split, hrecord.trans h.record, fun _ => hs⟩ hb hentry

theorem pulled_cons {v : Element} (hv : v.size < fuel) (h : Tracks all r landed (v :: rest))
    (hb : r.buffer = .empty) (hd : r.state.walk.outer.length = r.depth) :
    Pulled all landed (v :: rest) (r.pull (cursor rule wrap) fuel).1
      (r.pull (cursor rule wrap) fuel).2 := by
  have hplace := h.place hd
  have hsplit : (landed ++ [v]) ++ rest = all := by
    rw [List.append_assoc]
    exact h.split
  have hpass : (r.state.walk.top.pass 1).remaining = rest := by
    rw [Level.remaining_pass, hplace]
    rfl
  have hlanding : ∀ s, (cursor rule wrap).perform .advance r.state = (.ok (some v.kind), s) →
      s.landed r.depth = landed ++ [v] ∧ s.advanceFailed r.depth = false := by
    intro s hadvance
    obtain ⟨hrecord, hfailed⟩ := landed_of_advance hd hadvance
    rw [Walk.advance_of_cons hplace, h.record] at hrecord
    have hcurrent := congrArg (landed ++ Option.toList ·) (Level.current?_pass_one hplace)
    exact ⟨hrecord.trans hcurrent, hfailed⟩
  rw [← hd] at hlanding
  have hends := ends_pullAt_cons (follows rule wrap) r.limit fuel rfl hplace hv
    (keptBelow rule wrap (landed ++ [v])) hlanding
  rw [hd] at hends
  refine pull_elim hends ?_ ?_ ?_
  · rintro s ⟨he, -⟩
    cases he
  · rintro e s ⟨he, hs, hrecord, -⟩
    cases he
    have hs' : s.walk.top.remaining = rest := by
      rw [hs]
      exact hpass
    exact .copied rfl ⟨hsplit, hrecord, fun _ => hs'⟩ hb
  · rintro e s (hrefused | hspoilt)
    · obtain ⟨hrecord, hentry⟩ := landed_of_refused hd hrefused
      have hs : s.walk.top.remaining = v :: rest := by
        rw [hrefused.place]
        exact hplace
      exact .excused ⟨h.split, hrecord.trans h.record, fun _ => hs⟩ hb hentry
    · obtain ⟨hrecord, hfailed⟩ := hspoilt.kept
      refine .spoilt rfl ⟨hsplit, hrecord, ?_⟩ hb (failures_of_spoilt hspoilt hfailed)
      -- The cursor is still on the element or was left below it.
      intro hs
      rcases hspoilt.place with hp | hp
      · change s.walk.top.remaining = rest
        rw [hp]
        exact hpass
      · exact absurd (hs.trans hd.symm) (Nat.ne_of_gt hp)

/-- Below its own depth a reader makes no call. -/
theorem pulled_stranded (fuel : Nat) (h : Tracks all r landed rest) (hb : r.buffer = .empty)
    (hd : r.state.walk.outer.length ≠ r.depth) :
    Pulled all landed rest (r.pull (cursor rule wrap) fuel).1
      (r.pull (cursor rule wrap) fuel).2 := by
  rw [pull_of_stranded hd]
  exact .excused h hb rfl

/-- A pull lands on the first of the rest and settles it, or lands nowhere. -/
theorem exists_pulled (hfuel : itemsSize all < fuel) (h : Tracks all r landed rest)
    (hb : r.buffer = .empty) : ∃ o r', r.pull (cursor rule wrap) fuel = (o, r') ∧
      r'.depth = r.depth ∧ Pulled all landed rest o r' := by
  refine ⟨_, _, rfl, depth_pull _ fuel r, ?_⟩
  by_cases hd : r.state.walk.outer.length = r.depth
  · cases rest with
    | nil => exact pulled_nil rule wrap fuel h hb hd
    | cons v rest =>
      have hv : v ∈ all := h.split ▸ List.mem_append_right landed List.mem_cons_self
      have hsize := Nat.lt_of_le_of_lt (size_le_itemsSize hv) hfuel
      exact pulled_cons rule wrap hsize h hb hd
  · exact pulled_stranded rule wrap fuel h hb hd

end

/-- What one request adds: the elements newly landed on, some of which are settled by its entries
together with what was held before, and the others held now. -/
def Answered (all landed rest : List Element) (r : Reader Faulty) (q : Request) (o : Outcome ε q.Answer)
    (r' : Reader Faulty) : Prop :=
  o ≠ .unfinished ∧ r'.depth = r.depth ∧ ∃ new rest' settled, rest = new ++ rest' ∧
    Tracks all r' (landed ++ new) rest' ∧ r.held ++ new = settled ++ r'.held ∧
    List.Forall₂ Entry.Settles settled (entries r.depth r'.state q o)

section
variable {all landed rest : List Element} {r r' : Reader Faulty} {q : Request} {o : Outcome ε q.Answer}

/-- Nothing new was landed on. -/
theorem answered_old (settled : List Element) (ho : o ≠ .unfinished) (hd : r'.depth = r.depth)
    (h : Tracks all r' landed rest) (hheld : r.held = settled ++ r'.held)
    (he : List.Forall₂ Entry.Settles settled (entries r.depth r'.state q o)) :
    Answered all landed rest r q o r' := by
  refine ⟨ho, hd, [], rest, settled, rfl, ?_, ?_, he⟩
  · rw [List.append_nil]
    exact h
  · rw [List.append_nil]
    exact hheld

/-- One element was landed on by a reader that held nothing. -/
theorem answered_new {v : Element} (settled : List Element) (hb : r.buffer = .empty)
    (ho : o ≠ .unfinished) (hd : r'.depth = r.depth) (h : Tracks all r' (landed ++ [v]) rest)
    (hheld : [v] = settled ++ r'.held)
    (he : List.Forall₂ Entry.Settles settled (entries r.depth r'.state q o)) :
    Answered all landed (v :: rest) r q o r' := by
  refine ⟨ho, hd, [v], rest, settled, rfl, h, ?_, he⟩
  rw [held_of_buffer hb]
  exact hheld

/-- A failed pull fails every request alike. -/
theorem answered_error {e : ReadError ε} (hb : r.buffer = .empty) (hd : r'.depth = r.depth)
    (h : Pulled all landed rest (.error e) r') : Answered all landed rest r q (.error e) r' := by
  have hheld : r.held = [] := held_of_buffer hb
  cases h with
  | excused h hb' he =>
    have hheld' : r'.held = [] := held_of_buffer hb'
    refine answered_old [] nofun hd h (hheld.trans hheld'.symm) ?_
    rw [hd] at he
    change List.Forall₂ _ _ (failures r.depth r'.state e)
    rw [he]
    exact .nil
  | spoilt hr h hb' he =>
    have hheld' : r'.held = [] := held_of_buffer hb'
    subst hr
    refine answered_new [_] hb nofun hd h (by rw [hheld']; rfl) ?_
    rw [hd] at he
    change List.Forall₂ _ _ (failures r.depth r'.state e)
    rw [he]
    exact .cons trivial .nil

end

section
variable (rule : Rule ε) (wrap : WalkError → ε) {all : List Element} {fuel : Nat}
  (hfuel : itemsSize all < fuel) {r : Reader Faulty} {landed rest : List Element}
  (h : Tracks all r landed rest)
include hfuel h

theorem answered_hasNext : Answered all landed rest r .hasNext
    (r.hasNext (cursor rule wrap) fuel).1 (r.hasNext (cursor rule wrap) fuel).2 := by
  unfold hasNext
  cases hb : r.buffer with
  | ended => exact answered_old [] nofun rfl h rfl .nil
  | holding e => exact answered_old [] nofun rfl h rfl .nil
  | empty =>
    obtain ⟨o, r', hpull, hd, hpulled⟩ := exists_pulled rule wrap hfuel h hb
    have hheld : r.held = [] := held_of_buffer hb
    rw [hpull]
    cases o with
    | unfinished => cases hpulled
    | error e => exact answered_error hb hd hpulled
    | ok o =>
      cases hpulled with
      | ended h hb' =>
        have hheld' : r'.held = [] := held_of_buffer hb'
        exact answered_old [] nofun hd h (hheld.trans hheld'.symm) .nil
      | copied hr h' hb' =>
        subst hr
        exact answered_new [] hb nofun hd ⟨h'.split, h'.record, h'.place⟩ rfl .nil

theorem answered_next : Answered all landed rest r .next
    (r.next (cursor rule wrap) fuel).1 (r.next (cursor rule wrap) fuel).2 := by
  unfold next
  cases hb : r.buffer with
  | ended => exact answered_old [] nofun rfl h rfl .nil
  | holding e =>
    have hheld : r.held = [e] := held_of_buffer hb
    exact answered_old [e] nofun rfl ⟨h.split, h.record, h.place⟩ hheld (.cons rfl .nil)
  | empty =>
    obtain ⟨o, r', hpull, hd, hpulled⟩ := exists_pulled rule wrap hfuel h hb
    have hheld : r.held = [] := held_of_buffer hb
    rw [hpull]
    cases o with
    | unfinished => cases hpulled
    | error e => exact answered_error hb hd hpulled
    | ok o =>
      cases hpulled with
      | ended h hb' =>
        have hheld' : r'.held = [] := held_of_buffer hb'
        exact answered_old [] nofun hd h (hheld.trans hheld'.symm) .nil
      | copied hr h' hb' =>
        have hheld' : r'.held = [] := held_of_buffer hb'
        subst hr
        have hsettled : ∀ e : Element, [e] = [e] ++ r'.held := fun e => by rw [hheld']; rfl
        exact answered_new [_] hb nofun hd h' (hsettled _) (.cons rfl .nil)

theorem answered_peek : Answered all landed rest r .peek
    (r.peek (cursor rule wrap) fuel).1 (r.peek (cursor rule wrap) fuel).2 := by
  have hhasNext := answered_hasNext rule wrap hfuel h
  unfold peek
  rcases hb : r.hasNext (cursor rule wrap) fuel with ⟨b | e | _, r'⟩ <;>
    rw [hb] at hhasNext <;> obtain ⟨ho, hd, hanswered⟩ := hhasNext
  · exact ⟨nofun, hd, hanswered⟩
  · exact ⟨nofun, hd, hanswered⟩
  · exact absurd rfl ho

theorem answered_next? : Answered all landed rest r .next?
    (r.next? (cursor rule wrap) fuel).1 (r.next? (cursor rule wrap) fuel).2 := by
  have hnext := answered_next rule wrap hfuel h
  unfold next?
  rcases he : r.next (cursor rule wrap) fuel with ⟨e | e | _, r'⟩ <;>
    rw [he] at hnext <;> obtain ⟨ho, hd, hanswered⟩ := hnext
  · exact ⟨nofun, hd, hanswered⟩
  · cases e <;> exact ⟨nofun, hd, hanswered⟩
  · exact absurd rfl ho

theorem answered_respond (q : Request) : Answered all landed rest r q
    (respond (cursor rule wrap) fuel q r).1 (respond (cursor rule wrap) fuel q r).2 := by
  cases q with
  | hasNext => exact answered_hasNext rule wrap hfuel h
  | peek => exact answered_peek rule wrap hfuel h
  | next => exact answered_next rule wrap hfuel h
  | next? => exact answered_next? rule wrap hfuel h
  | remove => exact answered_old [] nofun rfl h rfl .nil

/-- Over a session the elements that were held at first and those newly landed on are settled. -/
theorem exists_settled (requests : List Request) :
    ∃ new rest', rest = new ++ rest' ∧
      Tracks all (serve (respond (cursor rule wrap) fuel) requests r).2 (landed ++ new) rest' ∧
      (serve (respond (cursor rule wrap) fuel) requests r).2.depth = r.depth ∧
      List.Forall₂ Entry.Settles (r.held ++ new) (account rule wrap fuel requests r) ∧
      ∀ reply ∈ (serve (respond (cursor rule wrap) fuel) requests r).1, reply.2 ≠ .unfinished := by
  induction requests generalizing r landed rest with
  | nil =>
    have hheld : List.Forall₂ Entry.Settles r.held (r.held.map (Entry.copy (ε := ε))) := by
      rw [List.forall₂_map_right_iff]
      exact List.forall₂_same.mpr fun _ _ => rfl
    refine ⟨[], rest, rfl, ?_, rfl, ?_, nofun⟩
    · rw [List.append_nil]
      exact h
    · rw [List.append_nil]
      exact hheld
  | cons q requests ih =>
    obtain ⟨ho, hd, new, rest', settled, hrest, h', hheld, hentries⟩ :=
      answered_respond rule wrap hfuel h q
    obtain ⟨new', rest'', hrest', h'', hd', hsettled, hreplies⟩ := ih h'
    rw [serve_cons]
    refine ⟨new ++ new', rest'', ?_, ?_, hd'.trans hd, ?_, ?_⟩
    · rw [hrest, hrest', List.append_assoc]
    · rw [← List.append_assoc]
      exact h''
    · rw [← List.append_assoc, hheld, List.append_assoc]
      exact List.rel_append hentries hsettled
    · exact List.forall_mem_cons.mpr ⟨ho, hreplies⟩

end

/-- Whatever calls are refused, under any limit, and whatever is requested: the elements that
advances landed on at the reader's depth are the first ones of those that remained there, and they
are settled one by one by the copies handed out or held and the errors. At its own depth the cursor
still has all the others ahead of it. -/
theorem landed_settled (rule : Rule ε) (wrap : WalkError → ε) (limit : Option Nat) (w : Walk)
    {fuel : Nat} (hfuel : itemsSize w.top.remaining < fuel) (requests : List Request) :
    let c := cursor rule wrap
    let r := start c limit ⟨w, []⟩
    let session := serve (respond c fuel) requests r
    let landed := session.2.state.landed w.outer.length
    List.Forall₂ Entry.Settles landed (account rule wrap fuel requests r) ∧
      (∃ rest, landed ++ rest = w.top.remaining ∧
        (session.2.state.walk.outer.length = w.outer.length →
          session.2.state.walk.top.remaining = rest)) ∧
      ∀ reply ∈ session.1, reply.2 ≠ .unfinished := by
  intro c r session landed
  have hstart : Tracks w.top.remaining r [] w.top.remaining := ⟨rfl, rfl, fun _ => rfl⟩
  obtain ⟨new, rest, -, h, hd, hsettled, hreplies⟩ :=
    exists_settled rule wrap hfuel hstart requests
  have hdepth : session.2.depth = w.outer.length := hd
  have hlanded : landed = new := by
    have hrecord := h.record
    rw [hd] at hrecord
    exact hrecord
  refine ⟨?_, ⟨rest, ?_, ?_⟩, hreplies⟩
  · rw [hlanded]
    exact hsettled
  · rw [hlanded]
    exact h.split
  · intro hplace
    exact h.place (hplace.trans hdepth.symm)

/-- Where reading a string fails, just that string is lost. -/
theorem landed_with_strings_refused :
    let one := Element.ofScalar .int 1
    let text := Element.ofScalar .string "s"
    let w := Walk.start [text, one] .system
    let rule : Rule String := fun _ _ q => if q = .read .string then some "refused" else none
    let c := cursor rule WalkError.message
    let session := serve (respond c 3) [.next, .peek] (start c none ⟨w, []⟩)
    itemsSize w.top.remaining < 3 ∧ session.2.state.landed 0 = [text, one] ∧
      List.Forall₂ Entry.Settles [text, one] [.failure (.cursor "refused"), .copy one] := by
  intro one text w rule c session
  have hsize : itemsSize w.top.remaining < 3 := by decide
  exact ⟨hsize, rfl, (landed_settled rule WalkError.message none w hsize [.next, .peek]).1⟩

end Reader
end IonDocument
