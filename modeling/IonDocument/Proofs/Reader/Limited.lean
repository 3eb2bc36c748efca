import IonDocument.Proofs.Loading.Limit
import IonDocument.Proofs.Reader.Pull
import IonDocument.Proofs.Reader.Session

/-! # Readers under a limit

Under a limit on the depth a reader over a walk is a supply of the children that are left on its
level. One that fits is handed out, and another is reported once. At the limit or below it the next
child follows; above it the walk was left inside the child that did not fit, and the supply has
stopped for good.
-/
namespace IonDocument
open Dialogue

/-- What a request answers when a child, or the end of the level, is in front. -/
def Request.answer {ε : Type} : (q : Request) → Option Element → Outcome ε q.Answer
  | .hasNext, o => .ok o.isSome
  | .peek, o => .ok o
  | .next, some e => .ok e
  | .next, none => .error .exhausted
  | .next?, o => .ok o
  | .remove, _ => .error (.unsupported "remove")

/-- Whether a request takes the child that it answers with. -/
def Request.takes : Request → Bool
  | .next | .next? => true
  | .hasNext | .peek | .remove => false

/-- The children to be handed out or reported, until the supply has stopped. -/
inductive Supply where
  | flowing (waiting : List Element)
  | stopped

namespace Supply

def draw (limit depth : Nat) : Supply → Except Fault (Option Element) × Supply
  | .stopped => (.error (.stranded limit depth), .stopped)
  | .flowing [] => (.ok none, .flowing [])
  | .flowing (e :: rest) =>
    if e.Fits limit depth then (.ok (some e), .flowing rest)
    else (.error (.tooDeep limit), if limit ≤ depth then .flowing rest else .stopped)

/-- A look leaves everything in place, unless it fails. -/
def respond {ε : Type} (limit depth : Nat) : Machine ε Supply
  | .remove, supply => (.error (.unsupported "remove"), supply)
  | q, supply =>
    match supply.draw limit depth with
    | (.ok o, supply') => (q.answer o, if q.takes then supply' else supply)
    | (.error f, supply') => (.error (.fault f), supply')

variable {ε : Type} {limit depth : Nat} {supply supply' : Supply}

theorem respond_of_ok (q : Request) (hq : q ≠ .remove) {o : Option Element}
    (h : supply.draw limit depth = (.ok o, supply')) : respond (ε := ε) limit depth q supply =
      (q.answer o, if q.takes then supply' else supply) := by
  cases q with
  | remove => exact absurd rfl hq
  | _ => simp only [respond, h]

theorem respond_of_error (q : Request) (hq : q ≠ .remove) {f : Fault}
    (h : supply.draw limit depth = (.error f, supply')) :
    respond (ε := ε) limit depth q supply = (.error (.fault f), supply') := by
  cases q with
  | remove => exact absurd rfl hq
  | _ => simp only [respond, h]

/-- At the limit or below it a supply flows on. -/
theorem respond_ne_stopped (hle : limit ≤ depth) (h : supply ≠ .stopped) (q : Request) :
    (respond (ε := ε) limit depth q supply).2 ≠ .stopped := by
  have hdraw : (supply.draw limit depth).2 ≠ .stopped := by
    rcases supply with (_ | ⟨e, rest⟩) | _
    · nofun
    · simp only [draw, if_pos hle]
      split <;> nofun
    · exact absurd rfl h
  by_cases hq : q = .remove
  · rw [hq]
    exact h
  · rcases hd : supply.draw limit depth with ⟨f | o, supply'⟩
    · rw [hd] at hdraw
      rw [respond_of_error q hq hd]
      exact hdraw
    · rw [hd] at hdraw
      rw [respond_of_ok q hq hd]
      cases q.takes with
      | false => exact h
      | true => exact hdraw

theorem serve_ne_stopped (hle : limit ≤ depth) (h : supply ≠ .stopped) (requests : List Request) :
    (serve (respond (ε := ε) limit depth) requests supply).2 ≠ .stopped := by
  induction requests generalizing supply with
  | nil => exact h
  | cons q requests ih =>
    rw [serve_cons]
    exact ih (respond_ne_stopped hle h q)

/-- What is said about an element when it is asked for. -/
def verdict (limit depth : Nat) (e : Element) : Outcome ε (Option Element) :=
  if e.Fits limit depth then .ok (some e) else .error (.fault (.tooDeep limit))

/-- A whole run at the limit or below it: every element has its verdict, and then comes the end. -/
theorem serve_to_end (hle : limit ≤ depth) (es : List Element) :
    (serve (respond (ε := ε) limit depth) (List.replicate (es.length + 1) .next?)
      (.flowing es)).1 = es.map (fun e => ⟨.next?, verdict limit depth e⟩) ++
        [⟨.next?, .ok none⟩] := by
  induction es with
  | nil => rfl
  | cons e rest ih =>
    have hstep : respond (ε := ε) limit depth .next? (.flowing (e :: rest)) =
        (verdict limit depth e, .flowing rest) := by
      unfold verdict
      by_cases hfit : e.Fits limit depth
      · have hd : draw limit depth (.flowing (e :: rest)) = (.ok (some e), .flowing rest) :=
          if_pos hfit
        rw [respond_of_ok .next? nofun hd, if_pos hfit]
        rfl
      · have hd : draw limit depth (.flowing (e :: rest)) =
            (.error (.tooDeep limit), if limit ≤ depth then .flowing rest else .stopped) :=
          if_neg hfit
        rw [respond_of_error .next? nofun hd, if_neg hfit, if_pos hle]
    rw [List.length_cons, List.replicate_succ, serve_cons, hstep, ih]
    rfl

theorem serve_stopped (requests : List Request) :
    (serve (respond (ε := ε) limit depth) requests .stopped).2 = .stopped ∧
      ∀ reply ∈ (serve (respond (ε := ε) limit depth) requests .stopped).1,
        reply.1 ≠ .remove → reply.2 = .error (.fault (.stranded limit depth)) := by
  induction requests with
  | nil => exact ⟨rfl, nofun⟩
  | cons q requests ih =>
    have hstay : (respond (ε := ε) limit depth q .stopped).2 = .stopped := by cases q <;> rfl
    rw [serve_cons, hstay]
    refine ⟨ih.1, List.forall_mem_cons.mpr ⟨?_, ih.2⟩⟩
    intro hq
    cases q with
    | remove => exact absurd rfl hq
    | _ => rfl

/-- Above the limit a supply stops where it reports a child. -/
theorem respond_of_tooDeep (hlt : depth < limit) {q : Request}
    (h : (respond (ε := ε) limit depth q supply).1 = .error (.fault (.tooDeep limit))) :
    (respond (ε := ε) limit depth q supply).2 = .stopped := by
  by_cases hq : q = .remove
  · subst hq
    cases h
  · rcases hd : supply.draw limit depth with ⟨f | o, supply'⟩
    · rw [respond_of_error q hq hd] at h ⊢
      rcases supply with (_ | ⟨e, rest⟩) | _
      · cases hd
      · simp only [draw, if_neg (Nat.not_le.mpr hlt)] at hd
        split at hd <;> cases hd
        rfl
      · cases hd
        rfl
    · rw [respond_of_ok q hq hd] at h
      cases q with
      | next => cases o <;> cases h
      | remove => exact absurd rfl hq
      | hasNext => cases h
      | peek => cases h
      | next? => cases h

theorem serve_of_tooDeep (hlt : depth < limit) {requests : List Request}
    (h : ∃ reply ∈ (serve (respond (ε := ε) limit depth) requests supply).1,
      reply.2 = .error (.fault (.tooDeep limit))) :
    (serve (respond (ε := ε) limit depth) requests supply).2 = .stopped := by
  induction requests generalizing supply with
  | nil =>
    obtain ⟨reply, hmem, -⟩ := h
    cases hmem
  | cons q requests ih =>
    obtain ⟨reply, hmem, hreply⟩ := h
    rw [serve_cons] at hmem ⊢
    rcases List.mem_cons.mp hmem with rfl | hmem
    · rw [respond_of_tooDeep hlt hreply]
      exact (serve_stopped requests).1
    · exact ih ⟨reply, hmem, hreply⟩

end Supply

namespace Reader

/-- The readers over walks that stand for a supply, when reading began at `w`. -/
inductive Stands (w : Walk) (limit : Nat) : Reader Walk → Supply → Prop where
  | waiting {n : Nat} : Stands w limit
      ⟨w.withTop (w.top.pass n), some limit, w.outer.length, .empty⟩
      (.flowing (w.top.remaining.drop n))
  | holding {n : Nat} {e : Element} {rest : List Element} (h : w.top.remaining.drop n = e :: rest)
      (hfit : e.Fits limit w.outer.length) : Stands w limit
      ⟨w.withTop (w.top.pass (n + 1)), some limit, w.outer.length, .holding e⟩
      (.flowing (e :: rest))
  | ended : Stands w limit
      ⟨w.withTop w.top.finish, some limit, w.outer.length, .ended⟩ (.flowing [])
  | stranded {w' : Walk} (hdepth : w.outer.length < limit) (hw' : w'.outer.length = limit) :
      Stands w limit ⟨w', some limit, w.outer.length, .empty⟩ .stopped

section
variable {w : Walk} {limit fuel n : Nat} {e : Element} {rest : List Element}

theorem Stands.waiting_of_drop {es : List Element} (h : w.top.remaining.drop n = es) :
    Stands w limit ⟨w.withTop (w.top.pass n), some limit, w.outer.length, .empty⟩ (.flowing es) :=
  h ▸ .waiting

/-- Before the next child a reader advances and loads it within the limit. -/
theorem ends_pullAt_within (hfuel : e.size < fuel) (h : w.top.remaining = e :: rest) :
    Ends Walk.cursor (pullAt (some limit) fuel w.outer.length) w
      (fun o w' => o = some e ∧ w' = w.withTop (w.top.pass 1) ∧ e.Fits limit w.outer.length)
      (Stopped limit (w.withTop (w.top.pass 1)) e) := by
  have hadvance : Walk.cursor.perform .advance w = (.ok (some e.kind), w.withTop (w.top.pass 1)) :=
    Walk.advance_of_cons h
  have hcurrent : (w.withTop (w.top.pass 1)).current? = some e := Level.current?_pass_one h
  refine ends_pullAt follows_walk (some limit) fuel rfl ((ends_ask_walk hadvance).bind ?_)
  rintro _ _ ⟨rfl, rfl⟩
  refine (loadsWithin_load limit hcurrent hfuel).bind ?_
  rintro _ w' ⟨rfl, hw', hfit⟩
  exact ends_pure ⟨rfl, hw', hfit⟩

/-- A pull comes out as drawing from the supply does. A child that is kept instead of being handed
out leaves the supply as it was. -/
inductive Draws (w : Walk) (limit : Nat) (supply : Supply) :
    Outcome WalkError (Option Element) → Reader Walk → Prop where
  | ended {r : Reader Walk} (hd : supply.draw limit w.outer.length = (.ok none, supply))
      (h : Stands w limit r supply) (hb : r.buffer = .ended) : Draws w limit supply (.ok none) r
  | child {r : Reader Walk} {e : Element} {supply' : Supply}
      (hd : supply.draw limit w.outer.length = (.ok (some e), supply'))
      (h : Stands w limit r supply') (hk : Stands w limit { r with buffer := .holding e } supply) :
      Draws w limit supply (.ok (some e)) r
  | failed {r : Reader Walk} {f : Fault} {supply' : Supply}
      (hd : supply.draw limit w.outer.length = (.error f, supply'))
      (h : Stands w limit r supply') : Draws w limit supply (.error (.fault f)) r

theorem draws_nil (fuel : Nat) (h : w.top.remaining.drop n = []) {r : Reader Walk}
    (hr : r = ⟨w.withTop (w.top.pass n), some limit, w.outer.length, .empty⟩) :
    Draws w limit (.flowing []) (r.pull Walk.cursor fuel).1 (r.pull Walk.cursor fuel).2 := by
  have hrun := run_pullAt_nil (w := w.withTop (w.top.pass n)) (some limit) fuel
    ((Level.remaining_pass w.top n).trans h)
  rw [hr, pull_of_none (hrun.trans (congrArg (Prod.mk _) (w.withTop_finish n)))]
  exact .ended rfl .ended rfl

theorem draws_cons (hfuel : e.size < fuel) (h : w.top.remaining.drop n = e :: rest)
    {r : Reader Walk} (hr : r = ⟨w.withTop (w.top.pass n), some limit, w.outer.length, .empty⟩) :
    Draws w limit (.flowing (e :: rest)) (r.pull Walk.cursor fuel).1
      (r.pull Walk.cursor fuel).2 := by
  have hpass : (w.withTop (w.top.pass n)).withTop ((w.withTop (w.top.pass n)).top.pass 1) =
      w.withTop (w.top.pass (n + 1)) := w.withTop_pass_one n
  have hrest := Children.drop_succ_of_drop_eq_cons h
  have hremaining : (w.withTop (w.top.pass n)).top.remaining = e :: rest :=
    (Level.remaining_pass w.top n).trans h
  have hends : Ends Walk.cursor (pullAt (some limit) fuel w.outer.length)
      (w.withTop (w.top.pass n)) _ _ := ends_pullAt_within hfuel hremaining
  rw [hpass] at hends
  subst hr
  refine pull_elim hends ?_ ?_ ?_
  · rintro s ⟨hnone, -⟩
    cases hnone
  · rintro a s ⟨ha, rfl, hfit⟩
    cases ha
    exact .child (if_pos hfit) (.waiting_of_drop hrest) (.holding h hfit)
  · rintro err s ⟨rfl, hplace, hunfit⟩
    refine .failed (if_neg hunfit) ?_
    by_cases hdepth : limit ≤ w.outer.length
    · rw [if_pos hdepth, hplace.eq_of_le hdepth]
      exact .waiting_of_drop hrest
    · have hs := hplace.depth_eq
      change s.outer.length = max w.outer.length limit at hs
      rw [if_neg hdepth]
      exact .stranded (Nat.lt_of_not_le hdepth) (by omega)

theorem draws_stopped (fuel : Nat) {w' : Walk} (hdepth : w.outer.length < limit)
    (hw' : w'.outer.length = limit) {r : Reader Walk}
    (hr : r = ⟨w', some limit, w.outer.length, .empty⟩) :
    Draws w limit .stopped (r.pull Walk.cursor fuel).1 (r.pull Walk.cursor fuel).2 := by
  have hne : (Walk.cursor.view r.state).depth ≠ r.depth := by
    rw [hr]
    change w'.outer.length ≠ w.outer.length
    omega
  rw [pull_of_stranded hne, hr]
  change Draws w limit .stopped (.error (.fault (.stranded w'.outer.length w.outer.length))) _
  rw [hw']
  exact .failed rfl (.stranded hdepth hw')

/-- A reader that holds nothing and has not seen the end draws from its supply. -/
theorem Stands.draws {r : Reader Walk} {supply : Supply} (h : Stands w limit r supply)
    (hfuel : itemsSize w.top.remaining < fuel) (hb : r.buffer = .empty) :
    Draws w limit supply (r.pull Walk.cursor fuel).1 (r.pull Walk.cursor fuel).2 := by
  cases h with
  | @waiting n =>
    cases hdrop : w.top.remaining.drop n with
    | nil => exact draws_nil fuel hdrop rfl
    | cons e rest =>
      have he : e ∈ w.top.remaining := List.mem_of_mem_drop (hdrop ▸ List.mem_cons_self)
      exact draws_cons (Nat.lt_of_le_of_lt (size_le_itemsSize he) hfuel) hdrop rfl
  | holding => cases hb
  | ended => cases hb
  | stranded hdepth hw' => exact draws_stopped fuel hdepth hw' rfl

end

/-- The reply of the supply, and a reader that stands for what is left of it. -/
def Serves (w : Walk) (limit : Nat) (supply : Supply) (q : Request)
    (x : Outcome WalkError q.Answer × Reader Walk) : Prop :=
  x.1 = (supply.respond limit w.outer.length q).1 ∧
    Stands w limit x.2 (supply.respond (ε := WalkError) limit w.outer.length q).2

section
variable {w : Walk} {limit fuel : Nat} {r : Reader Walk} {supply : Supply}
  (h : Stands w limit r supply)
include h

theorem Stands.draw_of_ended (hb : r.buffer = .ended) :
    supply.draw limit w.outer.length = (.ok none, supply) := by
  cases h with
  | waiting => cases hb
  | holding => cases hb
  | ended => rfl
  | stranded => cases hb

theorem Stands.draw_of_holding {e : Element} (hb : r.buffer = .holding e) :
    ∃ rest, supply.draw limit w.outer.length = (.ok (some e), .flowing rest) ∧
      Stands w limit { r with buffer := .empty } (.flowing rest) := by
  cases h with
  | waiting => cases hb
  | @holding n a rest hdrop hfit =>
    cases hb
    have hrest := Children.drop_succ_of_drop_eq_cons hdrop
    exact ⟨rest, if_pos hfit, .waiting_of_drop hrest⟩
  | ended => cases hb
  | stranded => cases hb

variable (hfuel : itemsSize w.top.remaining < fuel)
include hfuel

/-- After a look the reader holds what the supply has in front, unless the look failed. -/
theorem serves_hasNext : Serves w limit supply .hasNext (r.hasNext Walk.cursor fuel) ∧
    ∀ b, (r.hasNext Walk.cursor fuel).1 = .ok b → (supply.draw limit w.outer.length).1 =
      .ok (r.hasNext Walk.cursor fuel).2.buffer.element? := by
  unfold hasNext Serves
  cases hb : r.buffer with
  | ended =>
    have hd := h.draw_of_ended hb
    rw [Supply.respond_of_ok .hasNext nofun hd, hd, hb]
    exact ⟨⟨rfl, h⟩, fun _ _ => rfl⟩
  | holding e =>
    obtain ⟨rest, hd, -⟩ := h.draw_of_holding hb
    rw [Supply.respond_of_ok .hasNext nofun hd, hd, hb]
    exact ⟨⟨rfl, h⟩, fun _ _ => rfl⟩
  | empty =>
    have hdraws := h.draws hfuel hb
    rcases hpull : r.pull Walk.cursor fuel with ⟨o, r'⟩
    rw [hpull] at hdraws
    cases hdraws with
    | ended hd h' hb' =>
      rw [Supply.respond_of_ok .hasNext nofun hd, hd]
      exact ⟨⟨rfl, h'⟩, fun _ _ => by rw [Outcome.andThen_ok, hb']; rfl⟩
    | child hd h' hk =>
      rw [Supply.respond_of_ok .hasNext nofun hd, hd]
      exact ⟨⟨rfl, hk⟩, fun _ _ => rfl⟩
    | failed hd h' =>
      rw [Supply.respond_of_error .hasNext nofun hd]
      exact ⟨⟨rfl, h'⟩, nofun⟩

theorem serves_next : Serves w limit supply .next (r.next Walk.cursor fuel) := by
  unfold next Serves
  cases hb : r.buffer with
  | ended =>
    rw [Supply.respond_of_ok .next nofun (h.draw_of_ended hb)]
    exact ⟨rfl, h⟩
  | holding e =>
    obtain ⟨rest, hd, h'⟩ := h.draw_of_holding hb
    rw [Supply.respond_of_ok .next nofun hd]
    exact ⟨rfl, h'⟩
  | empty =>
    have hdraws := h.draws hfuel hb
    rcases hpull : r.pull Walk.cursor fuel with ⟨o, r'⟩
    rw [hpull] at hdraws
    cases hdraws with
    | ended hd h' hb' =>
      rw [Supply.respond_of_ok .next nofun hd]
      exact ⟨rfl, h'⟩
    | child hd h' hk =>
      rw [Supply.respond_of_ok .next nofun hd]
      exact ⟨rfl, h'⟩
    | failed hd h' =>
      rw [Supply.respond_of_error .next nofun hd]
      exact ⟨rfl, h'⟩

theorem serves_peek : Serves w limit supply .peek (r.peek Walk.cursor fuel) := by
  have hlook := serves_hasNext h hfuel
  unfold peek
  unfold Serves at hlook ⊢
  rcases hx : r.hasNext Walk.cursor fuel with ⟨x, r'⟩
  rw [hx] at hlook
  obtain ⟨⟨hreply, hstands⟩, hheld⟩ := hlook
  rcases hd : supply.draw limit w.outer.length with ⟨f | o, supply'⟩
  · rw [Supply.respond_of_error .hasNext nofun hd] at hreply hstands
    rw [Supply.respond_of_error .peek nofun hd]
    obtain rfl : x = .error (.fault f) := hreply
    exact ⟨rfl, hstands⟩
  · rw [Supply.respond_of_ok .hasNext nofun hd] at hreply hstands
    rw [Supply.respond_of_ok .peek nofun hd]
    obtain rfl : x = .ok o.isSome := hreply
    have hfront := hheld o.isSome rfl
    rw [hd] at hfront
    obtain rfl : o = r'.buffer.element? := Except.ok.inj hfront
    exact ⟨rfl, hstands⟩

theorem serves_next? : Serves w limit supply .next? (r.next? Walk.cursor fuel) := by
  have hnext := serves_next h hfuel
  unfold next?
  unfold Serves at hnext ⊢
  rcases hx : r.next Walk.cursor fuel with ⟨x, r'⟩
  rw [hx] at hnext
  obtain ⟨hreply, hstands⟩ := hnext
  rcases hd : supply.draw limit w.outer.length with ⟨f | o, supply'⟩
  · rw [Supply.respond_of_error .next nofun hd] at hreply hstands
    rw [Supply.respond_of_error .next? nofun hd]
    obtain rfl : x = .error (.fault f) := hreply
    exact ⟨rfl, hstands⟩
  · rw [Supply.respond_of_ok .next nofun hd] at hreply hstands
    rw [Supply.respond_of_ok .next? nofun hd]
    cases o with
    | none =>
      obtain rfl : x = .error .exhausted := hreply
      exact ⟨rfl, hstands⟩
    | some e =>
      obtain rfl : x = .ok e := hreply
      exact ⟨rfl, hstands⟩

theorem serves_respond (q : Request) : Serves w limit supply q (respond Walk.cursor fuel q r) := by
  cases q with
  | hasNext => exact (serves_hasNext h hfuel).1
  | peek => exact serves_peek h hfuel
  | next => exact serves_next h hfuel
  | next? => exact serves_next? h hfuel
  | remove => exact ⟨rfl, h⟩

theorem stands_serve (requests : List Request) :
    (serve (respond Walk.cursor fuel) requests r).1 =
        (serve (Supply.respond limit w.outer.length) requests supply).1 ∧
      Stands w limit (serve (respond Walk.cursor fuel) requests r).2
        (serve (Supply.respond (ε := WalkError) limit w.outer.length) requests supply).2 :=
  serve_simulates (fun q _ _ h => serves_respond h hfuel q) requests (R := Stands w limit) h

end

/-- A stranded reader stays as it is, its walk included. -/
theorem Stands.respond_of_stopped {w : Walk} {limit : Nat} {r : Reader Walk}
    (h : Stands w limit r .stopped) (fuel : Nat) (q : Request) :
    (respond Walk.cursor fuel q r).2 = r := by
  cases h with
  | @stranded w' hdepth hw' =>
    have hne : (Walk.cursor.view w').depth ≠ w.outer.length := by
      change w'.outer.length ≠ w.outer.length
      omega
    have hpull : (⟨w', some limit, w.outer.length, .empty⟩ : Reader Walk).pull Walk.cursor fuel =
        (.error (.fault (.stranded w'.outer.length w.outer.length)), _) := pull_of_stranded hne
    cases q with
    | hasNext => simp only [respond, hasNext, hpull, Outcome.andThen_error]
    | peek => simp only [respond, peek, hasNext, hpull, Outcome.andThen_error]
    | next => simp only [respond, next, hpull, Outcome.andThen_error]
    | next? => simp only [respond, next?, next, hpull, Outcome.andThen_error]
    | remove => rfl

theorem Stands.serve_of_stopped {w : Walk} {limit : Nat} {r : Reader Walk}
    (h : Stands w limit r .stopped) (fuel : Nat) (requests : List Request) :
    (serve (respond Walk.cursor fuel) requests r).2 = r := by
  induction requests with
  | nil => rfl
  | cons q requests ih =>
    rw [serve_cons, h.respond_of_stopped fuel q]
    exact ih

/-- Under a limit a reader started on any walk replies as the supply of the children that remain
there. At the limit or below it, every child is handed out if it fits and reported if not, up to
the end of the level. Above it the first child that does not fit leaves the walk at the depth of
the limit, where it stays: all that is read from then on is refused for that reason. -/
theorem serve_limited (w : Walk) (limit : Nat) {fuel : Nat}
    (hfuel : itemsSize w.top.remaining < fuel) (requests : List Request) :
    let d := w.outer.length
    let reader := start Walk.cursor (some limit) w
    let session := serve (respond Walk.cursor fuel) requests reader
    let supply := serve (Supply.respond (ε := WalkError) limit d) requests
      (.flowing w.top.remaining)
    session.1 = supply.1 ∧ Stands w limit session.2 supply.2 ∧
      (limit ≤ d → supply.2 ≠ .stopped ∧
        (serve (respond Walk.cursor fuel) (List.replicate (w.top.remaining.length + 1) .next?)
          reader).1 = w.top.remaining.map (fun e => ⟨.next?, Supply.verdict limit d e⟩) ++
            [⟨.next?, .ok none⟩]) ∧
      (d < limit → (∃ reply ∈ session.1, reply.2 = .error (.fault (.tooDeep limit))) →
        supply.2 = .stopped ∧ session.2.state.outer.length = limit ∧ ∀ more,
          (serve (respond Walk.cursor fuel) more session.2).2 = session.2 ∧
          ∀ reply ∈ (serve (respond Walk.cursor fuel) more session.2).1,
            reply.1 ≠ .remove → reply.2 = .error (.fault (.stranded limit d))) := by
  intro d reader session supply
  have hstart : Stands w limit reader (.flowing w.top.remaining) :=
    Stands.waiting_of_drop (n := 0) rfl
  obtain ⟨hreplies, hstands⟩ := stands_serve hstart hfuel requests
  refine ⟨hreplies, hstands, ?_, ?_⟩
  · intro hle
    have hflowing : Supply.flowing w.top.remaining ≠ .stopped := nofun
    exact ⟨Supply.serve_ne_stopped hle hflowing requests,
      (stands_serve hstart hfuel _).1.trans (Supply.serve_to_end hle _)⟩
  · intro hlt hdeep
    rw [hreplies] at hdeep
    have hstopped : supply.2 = .stopped := Supply.serve_of_tooDeep hlt hdeep
    change Stands w limit session.2 supply.2 at hstands
    rw [hstopped] at hstands
    have hdepth : session.2.state.outer.length = limit := by
      generalize session.2 = r at hstands
      cases hstands with
      | stranded _ hw' => exact hw'
    refine ⟨hstopped, hdepth, fun more => ⟨hstands.serve_of_stopped fuel more, ?_⟩⟩
    rw [(stands_serve hstands hfuel more).1]
    exact (Supply.serve_stopped more).2

/-- The second list has its child too deep, one level down, where the walk then stays. -/
theorem serve_nested_lists :
    let nothing := Element.ofValue (.list [])
    let pair := Element.ofValue (.list [.ofScalar .int 1, nothing])
    let w := Walk.start [nothing, pair, nothing] .system
    let session := serve (respond Walk.cursor 6) [.next, .peek, .next?, .remove]
      (start Walk.cursor (some 1) w)
    itemsSize w.top.remaining < 6 ∧
      session.1 = [⟨.next, .ok nothing⟩, ⟨.peek, .error (.fault (.tooDeep 1))⟩,
        ⟨.next?, .error (.fault (.stranded 1 0))⟩, ⟨.remove, .error (.unsupported "remove")⟩] ∧
      session.2.state.outer.length = 1 := by
  intro nothing pair w session
  have hsize : itemsSize w.top.remaining < 6 := by decide
  obtain ⟨hreplies, -, -, habove⟩ :=
    serve_limited w 1 hsize [.next, .peek, .next?, .remove]
  have hanswers : session.1 = [⟨.next, .ok nothing⟩, ⟨.peek, .error (.fault (.tooDeep 1))⟩,
      ⟨.next?, .error (.fault (.stranded 1 0))⟩, ⟨.remove, .error (.unsupported "remove")⟩] :=
    hreplies
  have hdeep : ∃ reply ∈ session.1, reply.2 = .error (.fault (.tooDeep 1)) := by
    rw [hanswers]
    exact ⟨⟨.peek, .error (.fault (.tooDeep 1))⟩, .tail _ (.head _), rfl⟩
  exact ⟨hsize, hanswers, (habove Nat.zero_lt_one hdeep).2.1⟩

end Reader
end IonDocument
