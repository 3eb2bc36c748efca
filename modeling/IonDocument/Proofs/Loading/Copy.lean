import IonDocument.Proofs.Dialogue.Ends
import IonDocument.Proofs.Element.Height
import IonDocument.Proofs.Element.Size
import IonDocument.Proofs.Loading.Rules
import IonDocument.Proofs.Walk.Follows

/-! # Loading copies

Loading through a cursor that follows a walk gives the very element that the walk is on, and
leaves the walk where it was, unless a call is refused or a container lies too deep. In the first
case the walk is either still where it was or somewhere below; in the second it is on the first
container that may not be entered. The invariant of the loop over the children of a container says
how many of them were passed; everything under the top level stays as it is.
-/
namespace IonDocument
open Dialogue Loading

/-- From where the first walk stands, the second is on the first container that may not be entered:
what stands before it on the way was passed, and fits. -/
inductive Walk.Barred (limit : Nat) : Walk → Walk → Prop where
  | here {w : Walk} {e : Element} {children : Children} (he : w.current? = some e)
      (hch : e.children? = some children) (hdepth : limit ≤ w.outer.length) : Barred limit w w
  | inside {w w' : Walk} {e a : Element} {children : Children} {n : Nat} (he : w.current? = some e)
      (hch : e.children? = some children) (hdepth : w.outer.length < limit)
      (hpassed : ∀ a ∈ children.elements.take n, a.Fits limit (w.outer.length + 1))
      (ha : children.elements[n]? = some a)
      (h : Barred limit (w.inside ((Level.enter children).pass (n + 1))) w') : Barred limit w w'

namespace Walk.Barred
variable {limit : Nat} {w w' : Walk}

theorem depth_eq (h : Barred limit w w') : w'.outer.length = max w.outer.length limit := by
  induction h with
  | here _ _ hdepth => exact (Nat.max_eq_left hdepth).symm
  | @inside w w' e a children n _ _ hdepth _ _ _ ih =>
    rw [ih]
    have hinside : (w.inside ((Level.enter children).pass (n + 1))).outer.length =
        w.outer.length + 1 := rfl
    rw [hinside]
    omega

/-- At the limit or below it the walk does not move at all. -/
theorem eq_of_le (h : Barred limit w w') (hdepth : limit ≤ w.outer.length) : w' = w := by
  cases h with
  | here => rfl
  | inside _ _ hlt => omega

end Walk.Barred

/-- Inside, behind `n` children and on the next one. -/
theorem Walk.current?_inside_pass (w : Walk) {children : Children} {n : Nat} {a : Element}
    (ha : children.elements[n]? = some a) :
    (w.inside ((Level.enter children).pass (n + 1))).current? = some a := by
  rw [Children.getElem?_elements] at ha
  change children.get? (0 + n) = some a
  rw [Nat.zero_add]
  exact ha

/-- The limit admits the element where it stands at a depth. Without a limit, all are admitted. -/
def Element.FitsUnder (limit : Option Nat) (depth : Nat) (e : Element) : Prop :=
  ∀ n ∈ limit, e.Fits n depth

theorem Element.fitsUnder_of_children {e : Element} {children : Children} {limit : Option Nat}
    {depth : Nat} (hch : e.children? = some children) (hroom : ∀ n ∈ limit, depth < n)
    (hfit : ∀ a ∈ children.elements, a.FitsUnder limit (depth + 1)) : e.FitsUnder limit depth :=
  fun n hn => (fits_iff_of_children hch).mpr ⟨hroom n hn, fun a ha => hfit a ha n hn⟩

variable {σ ε : Type} {c : Cursor σ ε} {walk : σ → Walk}

/-- How loading `e`, which the walk was on at `w`, fails: a call is refused at `w` or below it, or
the limit stops it before a container in `e` that is too deep. -/
inductive Spoilt (c : Cursor σ ε) (walk : σ → Walk) (limit : Option Nat) (w : Walk) (e : Element)
    (J : σ → Prop) : ReadError ε → σ → Prop where
  | refused {err : ε} {s : σ} (hf : Falters c walk err)
      (hplace : walk s = w ∨ w.outer.length < (walk s).outer.length) (hJ : J s) :
      Spoilt c walk limit w e J (.cursor err) s
  | tooDeep {n : Nat} {s : σ} (hn : n ∈ limit) (hbarred : w.Barred n (walk s))
      (hunfit : ¬ e.Fits n w.outer.length) (hJ : J s) :
      Spoilt c walk limit w e J (.fault (.tooDeep n)) s

section
variable {limit : Option Nat} {w : Walk} {e a : Element} {children : Children} {J : σ → Prop}
  {err : ReadError ε} {s : σ}

theorem Spoilt.place (h : Spoilt c walk limit w e J err s) :
    walk s = w ∨ w.outer.length < (walk s).outer.length := by
  cases h with
  | refused _ hplace _ => exact hplace
  | @tooDeep n _ _ hbarred _ _ =>
    have hdepth := hbarred.depth_eq
    by_cases hn : n ≤ w.outer.length
    · exact .inl (hbarred.eq_of_le hn)
    · right
      omega

theorem Spoilt.kept (h : Spoilt c walk limit w e J err s) : J s := by
  cases h with
  | refused _ _ hJ => exact hJ
  | tooDeep _ _ _ hJ => exact hJ

/-- The loop over the children of the container that `w` is on stands behind `n` of them, and the
limit admits these. -/
structure Passed (walk : σ → Walk) (limit : Option Nat) (w : Walk) (children : Children)
    (J : σ → Prop) (n : Nat) (s : σ) : Prop where
  place : walk s = w.inside ((Level.enter children).pass n)
  room : ∀ m ∈ limit, w.outer.length < m
  fit : ∀ b ∈ children.elements.take n, b.FitsUnder limit (w.outer.length + 1)
  kept : J s

/-- The loop has found the end, and the limit admits all the children. -/
structure Finished (walk : σ → Walk) (limit : Option Nat) (w : Walk) (children : Children)
    (J : σ → Prop) (s : σ) : Prop where
  place : walk s = w.inside (Level.enter children).finish
  room : ∀ m ∈ limit, w.outer.length < m
  fit : ∀ b ∈ children.elements, b.FitsUnder limit (w.outer.length + 1)
  kept : J s

/-- An advance from behind `n` children finds the end or lands on the next one. -/
inductive Advanced (walk : σ → Walk) (w : Walk) (children : Children) (J : σ → Prop) (n : Nat) :
    Option Kind → σ → Prop where
  | ended {s : σ} (hn : children.elements.length ≤ n)
      (hs : walk s = w.inside (Level.enter children).finish) (hJ : J s) :
      Advanced walk w children J n none s
  | landed {a : Element} {s : σ} (ha : children.elements[n]? = some a)
      (hs : walk s = w.inside ((Level.enter children).pass (n + 1))) (hJ : J s) :
      Advanced walk w children J n (some a.kind) s

/-- After `n` rows a step of the loop takes the next one, or finds the end. -/
inductive TakesRow {α : Type} (walk : σ → Walk) (limit : Option Nat) (w : Walk)
    (children : Children) (J : σ → Prop) (rows : List α) (n : Nat) : Option α → σ → Prop where
  | ended {s : σ} (hn : rows.length ≤ n) (h : Finished walk limit w children J s) :
      TakesRow walk limit w children J rows n none s
  | taken {a : α} {s : σ} (ha : rows[n]? = some a)
      (h : Passed walk limit w children J (n + 1) s) :
      TakesRow walk limit w children J rows n (some a) s

theorem Passed.finished {n : Nat} {t : σ} (h : Passed walk limit w children J n t)
    (hn : children.elements.length ≤ n) (hs : walk s = w.inside (Level.enter children).finish)
    (hJ : J s) : Finished walk limit w children J s := by
  have hfit := h.fit
  rw [List.take_of_length_le hn] at hfit
  exact ⟨hs, h.room, hfit, hJ⟩

theorem Passed.succ {n : Nat} {t : σ} (h : Passed walk limit w children J n t)
    (ha : children.elements[n]? = some a) (hfit : a.FitsUnder limit (w.outer.length + 1))
    (hs : walk s = w.inside ((Level.enter children).pass (n + 1))) (hJ : J s) :
    Passed walk limit w children J (n + 1) s := by
  refine ⟨hs, h.room, ?_, hJ⟩
  intro b hb
  rw [List.take_add_one, ha] at hb
  rcases List.mem_append.mp hb with hb | hb
  · exact h.fit b hb
  · obtain rfl := List.mem_singleton.mp hb
    exact hfit

/-- An error below a child of `w` is an error below `w`. -/
theorem Spoilt.outward {n : Nat} {t : σ} (he : w.current? = some e)
    (hch : e.children? = some children) (hpassed : Passed walk limit w children J n t)
    (ha : children.elements[n]? = some a)
    (h : Spoilt c walk limit (w.inside ((Level.enter children).pass (n + 1))) a J err s) :
    Spoilt c walk limit w e J err s := by
  cases h with
  | refused hf hplace hJ =>
    refine .refused hf (.inr ?_) hJ
    rcases hplace with hp | hp
    · rw [hp]
      exact Nat.lt_succ_self w.outer.length
    · exact Nat.lt_of_succ_lt hp
  | @tooDeep m _ hm hbarred hunfit hJ =>
    refine .tooDeep hm (.inside he hch (hpassed.room m hm) ?_ ha hbarred) ?_ hJ
    · intro b hb
      exact hpassed.fit b hb m hm
    · intro hfits
      have hall := ((Element.fits_iff_of_children hch).mp hfits).2
      exact hunfit (hall a (List.mem_of_getElem? ha))

end

/-- What `p` ends with where `e` is to be loaded that the walk is on at `w`. -/
def Copies (c : Cursor σ ε) (walk : σ → Walk) (limit : Option Nat) (J : σ → Prop)
    (p : Dialogue Element) (w : Walk) (e : Element) : Prop :=
  ∀ s past, walk s = w → J s → Goes c p s past
    (fun a s' _ => a = e ∧ walk s' = w ∧ J s' ∧ e.FitsUnder limit w.outer.length)
    (fun err s' _ => Spoilt c walk limit w e J err s') fun _ => False

/-- The children of the container that `w` is on are loaded as they are. -/
def CopiesEach (c : Cursor σ ε) (walk : σ → Walk) (limit : Option Nat) (J : σ → Prop)
    (child : Dialogue Element) (w : Walk) (children : Children) : Prop :=
  ∀ n a, children.elements[n]? = some a →
    Copies c walk limit J child (w.inside ((Level.enter children).pass (n + 1))) a

section
variable {J : σ → Prop} {limit : Option Nat} {w : Walk} {e : Element} {s : σ}
  {past : List (Event σ)} {child : Dialogue Element} {children : Children} {n fuel : Nat}

/-- Behind `n` children and on the next one, this one is loaded and passed, or loading fails in it. -/
theorem goes_child (he : w.current? = some e) (hch : e.children? = some children) {a : Element}
    {t : σ} (hchild : CopiesEach c walk limit J child w children)
    (hpassed : Passed walk limit w children J n t) (ha : children.elements[n]? = some a)
    (hs : walk s = w.inside ((Level.enter children).pass (n + 1))) (hJ : J s) :
    Goes c child s past (fun b s' _ => b = a ∧ Passed walk limit w children J (n + 1) s')
      (fun err s' _ => Spoilt c walk limit w e J err s') fun _ => False := by
  refine ((hchild n a ha s past hs hJ).mono_error ?_).mono ?_
  · intro err s' _ h
    exact h.outward he hch hpassed ha
  · rintro _ s' _ ⟨rfl, hs', hJ', hfit⟩
    exact ⟨rfl, hpassed.succ ha hfit hs' hJ'⟩

variable (hc : Follows c walk)
include hc

/-- A call that keeps `J`, at `w` itself or inside the container that `w` is on. -/
theorem goes_ask_kept {q : Call} {a : q.Answer} {w' : Walk} {U : List (Event σ) → Prop}
    (h : Walk.cursor.perform q (walk s) = (.ok a, w')) (hJ : J (c.perform q s).2)
    (hw : walk s = w ∨ w.outer.length < (walk s).outer.length) :
    Goes c (ask q) s past (fun b s' _ => b = a ∧ walk s' = w' ∧ J s')
      (fun err s' _ => Spoilt c walk limit w e J err s') U := by
  refine ((hc.ends_ask h).mono ?_ ?_).goes past
  · rintro b s' ⟨hb, hw', hs'⟩
    rw [hs'] at hJ
    exact ⟨hb, hw', hJ⟩
  · rintro err s' ⟨⟨err, rfl, _, hf⟩, hs, rfl⟩
    exact .refused hf (hs ▸ hw) hJ

variable (hk : KeptBelow c walk w.outer.length J)
include hk

theorem goes_advance (h : Passed walk limit w children J n s) :
    Goes c (ask .advance) s past (fun o s' _ => Advanced walk w children J n o s')
      (fun err s' _ => Spoilt c walk limit w e J err s') fun _ => False := by
  have hbelow : w.outer.length < (walk s).outer.length := by
    rw [h.place]
    exact Nat.lt_succ_self w.outer.length
  have hJ := hk .advance s h.kept fun _ => hbelow
  have hremaining : ((Level.enter children).pass n).remaining = children.elements.drop n :=
    Level.remaining_pass _ n
  cases hrest : children.elements.drop n with
  | nil =>
    have hadvance : Walk.cursor.perform .advance (walk s) =
        (.ok none, w.inside (Level.enter children).finish) := by
      rw [h.place, ← Level.finish_pass _ n]
      exact Walk.advance_of_nil (w := w.inside _) (hremaining.trans hrest)
    refine (goes_ask_kept hc hadvance hJ (.inr hbelow)).mono ?_
    rintro _ s' _ ⟨rfl, hs', hJ'⟩
    exact .ended (List.drop_eq_nil_iff.mp hrest) hs' hJ'
  | cons a rest =>
    have hadvance : Walk.cursor.perform .advance (walk s) =
        (.ok (some a.kind), w.inside ((Level.enter children).pass (n + 1))) := by
      rw [h.place, ← Level.pass_one_pass]
      exact Walk.advance_of_cons (w := w.inside _) (hremaining.trans hrest)
    have ha : children.elements[n]? = some a := by
      rw [← List.head?_drop, hrest]
      rfl
    refine (goes_ask_kept hc hadvance hJ (.inr hbelow)).mono ?_
    rintro _ s' _ ⟨rfl, hs', hJ'⟩
    exact .landed ha hs' hJ'

variable (he : w.current? = some e)
include he

theorem goes_next_item {items : List Element} (hch : e.children? = some (.items items))
    (hchild : CopiesEach c walk limit J child w (.items items))
    (h : Passed walk limit w (.items items) J n s) :
    Goes c (item child) s past
      (fun o s' _ => TakesRow walk limit w (.items items) J items n o s')
      (fun err s' _ => Spoilt c walk limit w e J err s') fun _ => False := by
  refine goes_item (goes_advance hc hk h) ?_ ?_
  · rintro s' _ ⟨hn, hs', hJ'⟩
    exact .ended hn (h.finished hn hs' hJ')
  · intro kind s' past' hadvanced
    cases hadvanced with
    | landed ha hs' hJ' =>
      refine (goes_child he hch hchild h ha hs' hJ').mono ?_
      rintro _ s'' _ ⟨rfl, h'⟩
      exact .taken ha h'

theorem goes_next_field {fields : Fields} (hch : e.children? = some (.fields fields))
    (hchild : CopiesEach c walk limit J child w (.fields fields))
    (h : Passed walk limit w (.fields fields) J n s) :
    Goes c (field child) s past
      (fun o s' _ => TakesRow walk limit w (.fields fields) J fields n o s')
      (fun err s' _ => Spoilt c walk limit w e J err s') fun _ => False := by
  have hrows : (Children.fields fields).elements[n]? = fields[n]?.map Prod.snd := List.getElem?_map
  refine goes_field (N := fun name s' _ => ∃ a, fields[n]? = some (name, a) ∧
    walk s' = w.inside ((Level.enter (.fields fields)).pass (n + 1)) ∧ J s')
    (goes_advance hc hk h) ?_ ?_ ?_
  · rintro s' _ ⟨hn, hs', hJ'⟩
    exact .ended (List.length_map Prod.snd ▸ hn) (h.finished hn hs' hJ')
  · intro kind s' past' hadvanced
    cases hadvanced with
    | landed ha hs' hJ' =>
      obtain ⟨⟨name, a⟩, hname, rfl⟩ := Option.map_eq_some_iff.mp (hrows.symm.trans ha)
      have hask : Walk.cursor.perform .fieldName (walk s') = (.ok name, walk s') := by
        rw [hs']
        exact Prod.ext (Walk.fieldName_pass w hname) rfl
      have hbelow : w.outer.length < (walk s').outer.length := by
        rw [hs']
        exact Nat.lt_succ_self w.outer.length
      refine (goes_ask_kept hc hask (hk _ _ hJ' (by rintro ⟨⟩)) (.inr hbelow)).mono ?_
      rintro _ s'' _ ⟨rfl, hs'', hJ''⟩
      exact ⟨a, hname, hs''.trans hs', hJ''⟩
  · rintro name s' past' ⟨a, hname, hs', hJ'⟩
    have ha : (Children.fields fields).elements[n]? = some a := by
      rw [hrows, hname]
      rfl
    refine (goes_child he hch hchild h ha hs' hJ').mono ?_
    rintro _ s'' _ ⟨rfl, h'⟩
    exact .taken hname h'

/-- What is inside the container that `w` is on, for a step that takes one row after another. -/
theorem goes_rows {α : Type} {rows : List α} (hch : e.children? = some children)
    (hfuel : rows.length < fuel) (hs : walk s = w) (hJ : J s)
    {step : Dialogue (Option α)}
    (hstep : ∀ n s past, Passed walk limit w children J n s → Goes c step s past
      (fun o s' _ => TakesRow walk limit w children J rows n o s')
      (fun err s' _ => Spoilt c walk limit w e J err s') fun _ => False) :
    Goes c (inside limit (w.outer.length + 1) fuel step) s past
      (fun got s' _ => got = rows ∧ walk s' = w ∧ J s' ∧ e.FitsUnder limit w.outer.length)
      (fun err s' _ => Spoilt c walk limit w e J err s') fun _ => False := by
  -- The loop stands behind as many children as there are rows collected.
  refine goes_inside (I := fun got s _ => got.reverse = rows.take got.length ∧
      got.length ≤ rows.length ∧ Passed walk limit w children J got.length s)
    (D := fun got s _ => got = rows ∧ Finished walk limit w children J s) ?_ ?_ ?_ ?_ ?_
  · intro n hn hdepth
    have hle : n ≤ w.outer.length := by omega
    have hbarred : w.Barred n (walk s) := by
      rw [hs]
      exact .here he hch hle
    refine .tooDeep hn hbarred ?_ hJ
    intro hfits
    exact Nat.not_lt_of_le hle ((Element.fits_iff_of_children hch).mp hfits).1
  · intro hroom
    have hin : Walk.cursor.perform .stepIn (walk s) = (.ok (), w.inside (.enter children)) :=
      hs.symm ▸ Walk.stepIn_of_children he hch
    refine (goes_ask_kept hc hin (hk _ _ hJ (by rintro ⟨⟩)) (.inl hs)).mono ?_
    rintro _ s' _ ⟨-, hs', hJ'⟩
    exact ⟨rfl, Nat.zero_le _, hs', hroom, nofun, hJ'⟩
  · rintro got s past ⟨hgot, hle, hpassed⟩
    refine (hstep _ s past hpassed).mono ?_
    rintro _ s' _ (⟨hn, hfinished⟩ | ⟨ha, hpassed'⟩)
    · exact ⟨hgot.trans (List.take_of_length_le hn), hfinished⟩
    · refine ⟨?_, (List.getElem?_eq_some_iff.mp ha).1, hpassed'⟩
      rw [List.reverse_cons, hgot, List.length_cons, List.take_add_one, ha]
      rfl
  · rintro got s past hlen ⟨-, hle, -⟩
    omega
  · rintro got s past ⟨rfl, hfinished⟩
    have hout : Walk.cursor.perform .stepOut (walk s) = (.ok (), w) :=
      hfinished.place.symm ▸ Walk.stepOut_inside w _
    have hbelow : w.outer.length < (walk s).outer.length := by
      rw [hfinished.place]
      exact Nat.lt_succ_self w.outer.length
    refine (goes_ask_kept hc hout (hk _ _ hfinished.kept (by rintro ⟨⟩)) (.inr hbelow)).mono ?_
    rintro _ s' _ ⟨-, hs', hJ'⟩
    exact ⟨rfl, hs', hJ', Element.fitsUnder_of_children hch hfinished.room hfinished.fit⟩

/-- The value of an element that is not null. -/
theorem goes_value_of (hnull : e.isNull = false) (hs : walk s = w) (hJ : J s)
    (hfuel : e.size ≤ fuel)
    (hchild : ∀ children, e.children? = some children →
      CopiesEach c walk limit J child w children) :
    Goes c (value limit (w.outer.length + 1) fuel child e.kind) s past
      (fun v s' _ => v = e.value ∧ walk s' = w ∧ J s' ∧ e.FitsUnder limit w.outer.length)
      (fun err s' _ => Spoilt c walk limit w e J err s') fun _ => False := by
  have hlen : ∀ children, e.children? = some children → children.size < fuel := by
    intro children hch
    have h := length_le_itemsSize children.elements
    rw [Element.size_of_children hch] at hfuel
    rw [Children.length_elements] at h
    omega
  rcases e with ⟨as, v, t⟩
  cases v with
  | null k => cases hnull
  | scalar x =>
    rcases x with ⟨k, p⟩
    have hread : Walk.cursor.perform (.read k) (walk s) = (.ok p, w) := by
      rw [hs]
      change Walk.read k w = _
      simp [Walk.read, he, Element.scalar?]
    refine goes_value nofun ?_ nofun nofun nofun
    rintro _ ⟨⟩
    refine (goes_ask_kept hc hread (hk _ _ hJ (by rintro ⟨⟩)) (.inl hs)).mono ?_
    rintro _ s' _ ⟨rfl, hs', hJ'⟩
    exact ⟨rfl, hs', hJ', fun _ _ => .inl rfl⟩
  | struct fields =>
    refine goes_value nofun nofun ?_ nofun nofun
    rintro -
    refine (goes_rows hc hk he rfl (hlen _ rfl) hs hJ fun _ _ _ h =>
      goes_next_field hc hk he rfl (hchild _ rfl) h).mono ?_
    rintro _ s' _ ⟨rfl, h⟩
    exact ⟨rfl, h⟩
  | list items =>
    refine goes_value nofun nofun nofun ?_ nofun
    rintro -
    refine (goes_rows hc hk he rfl (hlen _ rfl) hs hJ fun _ _ _ h =>
      goes_next_item hc hk he rfl (hchild _ rfl) h).mono ?_
    rintro _ s' _ ⟨rfl, h⟩
    exact ⟨rfl, h⟩
  | sexp items =>
    refine goes_value nofun nofun nofun nofun ?_
    rintro -
    refine (goes_rows hc hk he rfl (hlen _ rfl) hs hJ fun _ _ _ h =>
      goes_next_item hc hk he rfl (hchild _ rfl) h).mono ?_
    rintro _ s' _ ⟨rfl, h⟩
    exact ⟨rfl, h⟩

/-- One value is loaded as it is, whatever loads its children, if these are loaded so. -/
theorem copies_node (hfuel : e.size ≤ fuel)
    (hchild : ∀ children, e.children? = some children →
      CopiesEach c walk limit J child w children) :
    Copies c walk limit J (node limit w.outer.length fuel child) w e := by
  intro s past hs hJ
  have hview : c.view s = w.view := by rw [hc.view, hs]
  have hkind : w.view.kind? = some e.kind := by simp [Walk.view, he]
  have hisNull : w.view.isNull = e.isNull := by simp [Walk.view, he]
  have htable : w.view.table = e.table := by simp [Walk.view, he]
  have hannotations : Walk.cursor.perform .annotations (walk s) = (.ok e.annotations, w) := by
    rw [hs]
    change (w.annotations, w) = _
    simp [Walk.annotations, he]
  refine goes_node (T := fun names s' _ => names = e.annotations ∧ walk s' = w ∧ J s') ?_ ?_ ?_ ?_
  all_goals rw [hview]
  · intro hnone
    cases hkind.symm.trans hnone
  · intro _ _
    exact goes_ask_kept hc hannotations (hk _ _ hJ (by rintro ⟨⟩)) (.inl hs)
  · rintro kind _ s' _ hk' hnull ⟨rfl, hs', hJ'⟩
    obtain rfl := Option.some.inj (hkind.symm.trans hk')
    rw [hisNull] at hnull
    rw [htable]
    refine ⟨?_, hs', hJ', fun _ _ => Element.fits_of_isNull hnull _ _⟩
    rcases e with ⟨as, v, t⟩
    cases v <;> first | rfl | cases hnull
  · rintro kind _ s' past' hk' hnull ⟨rfl, hs', hJ'⟩
    obtain rfl := Option.some.inj (hkind.symm.trans hk')
    rw [hisNull] at hnull
    rw [htable]
    refine (goes_value_of hc hk he hnull hs' hJ' hfuel hchild).mono ?_
    rintro _ s'' _ ⟨rfl, h⟩
    refine ⟨?_, h⟩
    rcases e with ⟨as, v, t⟩
    rfl

end

/-- What loads every smaller element at its depth loads the children of this one. -/
theorem copiesEach_of_smaller {J : σ → Prop} {limit : Option Nat} {w : Walk} {e : Element}
    {children : Children} {fuel : Nat} {loader : Nat → Dialogue Element}
    (hk : KeptBelow c walk w.outer.length J) (hch : e.children? = some children)
    (hfuel : e.size ≤ fuel)
    (hsmaller : ∀ {w : Walk} {e : Element}, KeptBelow c walk w.outer.length J →
      w.current? = some e → e.size < fuel → Copies c walk limit J (loader w.outer.length) w e) :
    CopiesEach c walk limit J (loader (w.outer.length + 1)) w children := by
  intro n a ha
  have hsize := size_le_itemsSize (List.mem_of_getElem? ha)
  rw [Element.size_of_children hch] at hfuel
  exact hsmaller (hk.deeper (Nat.le_succ _)) (Walk.current?_inside_pass w ha) (by omega)

section
variable (hc : Follows c walk) {J : σ → Prop} (limit : Option Nat) {w : Walk} {e : Element}
  {fuel : Nat} (hk : KeptBelow c walk w.outer.length J) (he : w.current? = some e)
  (hfuel : e.size < fuel)
include hc hk he hfuel

theorem copies_element : Copies c walk limit J (element limit fuel w.outer.length) w e := by
  -- The depth that is counted is always that of the walk.
  induction fuel generalizing e w with
  | zero => cases hfuel
  | succ fuel ih =>
    have hle := Nat.le_of_lt_succ hfuel
    rw [element_succ]
    exact copies_node hc hk he hle fun children hch => copiesEach_of_smaller hk hch hle ih

/-- Loading where a cursor stands counts the depth from the top of the document. -/
theorem copies_load : Copies c walk limit J (load limit fuel) w e := by
  intro s past hs hJ
  have hdepth : (c.view s).depth = w.outer.length := by
    rw [hc.view, hs]
    rfl
  refine goes_load ?_
  rw [hdepth]
  exact copies_element hc limit hk he hfuel s _ hs hJ

end

/-- A walk does not falter, so without a limit nothing is spoilt. -/
theorem not_spoilt_walk {w : Walk} {e : Element} {J : Walk → Prop} {err : ReadError WalkError}
    {w' : Walk} : ¬ Spoilt Walk.cursor id none w e J err w' := by
  intro h
  cases h with
  | refused hf _ _ => exact not_falters_walk _ hf
  | tooDeep hn _ _ _ => cases hn

theorem run_load_of_current {w : Walk} {e : Element} {fuel : Nat} (he : w.current? = some e)
    (hfuel : e.size < fuel) : (load none fuel).run Walk.cursor w = (.ok e, w) := by
  have hload := copies_load follows_walk none (keptBelow_true _ _ _) he hfuel w [] rfl trivial
  exact (hload.ends.mono (fun _ _ h => ⟨h.1, h.2.1⟩) (fun _ _ h => not_spoilt_walk h)).run_eq

theorem run_load_of_no_current {w : Walk} (limit : Option Nat) {fuel : Nat}
    (he : w.current? = none) (hfuel : 0 < fuel) :
    (load limit fuel).run Walk.cursor w = (.error (.fault (.misreport .noValue)), w) := by
  obtain ⟨n, rfl⟩ : ∃ n, fuel = n + 1 := ⟨fuel - 1, by omega⟩
  have hview : (Walk.cursor.view w).kind? = none := by
    change w.current?.map Element.kind = none
    rw [he]
    rfl
  simp only [load, element, run_bind, run_observe, Outcome.andThen_ok, hview, run_fail]

/-- Loading copies the element that a walk is on, every node of it just as it stands, and leaves
the walk on it, so that the next advance lands on the child that follows. Off any element it
reports that and does nothing. -/
theorem load_eq_current (w : Walk) {fuel : Nat} (h : w.current?.elim 0 Element.size < fuel) :
    (∀ e, w.current? = some e → (load none fuel).run Walk.cursor w = (.ok e, w) ∧
      w.advance.1 = .ok (w.top.remaining.head?.map Element.kind) ∧
      w.advance.2.current? = w.top.remaining.head?) ∧
    (w.current? = none → (load none fuel).run Walk.cursor w =
      (.error (.fault (.misreport .noValue)), w)) := by
  refine ⟨?_, ?_⟩
  · intro e he
    rw [he] at h
    refine ⟨run_load_of_current he h, ?_⟩
    cases hr : w.top.remaining with
    | nil =>
      rw [Walk.advance_of_nil hr]
      exact ⟨rfl, rfl⟩
    | cons a rest =>
      rw [Walk.advance_of_cons hr]
      exact ⟨rfl, Level.current?_pass_one hr⟩
  · intro he
    rw [he] at h
    exact run_load_of_no_current none he h

/-- A list with a table of its own, in a struct where its name is given to a null as well. -/
theorem load_list_in_struct :
    let null : Element := .ofValue (.null (.container .list))
    let e : Element := ⟨[.named "a", .numbered 10], .list [null, .ofValue (.list [])],
      .ofLocals [some "x", none]⟩
    let fields := [(Token.named "n", e), (Token.named "n", null)]
    let w : Walk := ⟨⟨.fields fields, .on 0⟩, [⟨.items [.ofValue (.struct fields)], .on 0⟩], .system⟩
    w.current?.elim 0 Element.size < 4 ∧ (load none 4).run Walk.cursor w = (.ok e, w) := by
  intro null e fields w
  have hsize : w.current?.elim 0 Element.size < 4 := by decide
  exact ⟨hsize, ((load_eq_current w hsize).1 e rfl).1⟩

end IonDocument
