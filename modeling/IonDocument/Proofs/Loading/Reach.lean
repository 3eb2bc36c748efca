import IonDocument.Proofs.Element.Node
import IonDocument.Proofs.Loading.Limit
import IonDocument.Proofs.Walk.Stack

/-! # How far loading reaches under a limit

A container may not be entered if it stands at the limit or below it, whether it is empty or not. If
there is such a container in the element that a walk is on, loading is stopped at the first of them
in document order, and leaves the walk there; otherwise it gives the element. The depth that is
counted on the way down is always that of the walk.
-/
namespace IonDocument
open Dialogue Loading

/-- The node of `e` at a path may not be entered, where `e` stands at a depth: it is a container
that is not null, and the limit is reached there. -/
structure Element.Oversteps (limit depth : Nat) (e : Element) (path : List Nat) : Prop where
  node : ∃ a, e.at? path = some a ∧ a.isNull = false ∧ a.kind.isContainer = true
  deep : limit ≤ depth + path.length

/-- The first node in document order that may not be entered. -/
structure Element.OverstepsFirst (limit depth : Nat) (e : Element) (path : List Nat) : Prop where
  oversteps : e.Oversteps limit depth path
  first : ∀ q, e.Oversteps limit depth q → ¬ q < path

namespace Element
variable {limit depth i : Nat} {e a : Element} {children : Children} {p q path : List Nat}

/-- All of the way to a node is in the element. -/
theorem Oversteps.exists_at? {way : List Nat} (h : e.Oversteps limit depth path)
    (hway : way <+: path) : ∃ a, e.at? way = some a := by
  obtain ⟨⟨b, hb, -⟩, -⟩ := h
  obtain ⟨rest, rfl⟩ := hway
  rw [at?_append] at hb
  obtain ⟨a, ha, -⟩ := Option.bind_eq_some_iff.mp hb
  exact ⟨a, ha⟩

theorem isSome_children?_iff :
    e.children?.isSome = true ↔ e.isNull = false ∧ e.kind.isContainer = true := by
  rcases e with ⟨as, v, t⟩
  cases v <;> simp [children?, Value.children?, isNull, Value.isNull, kind, Value.kind,
    Kind.isContainer]

theorem oversteps_nil (hch : e.children? = some children) :
    e.Oversteps limit depth [] ↔ limit ≤ depth :=
  ⟨fun h => h.deep, fun h => ⟨⟨e, rfl, isSome_children?_iff.mp (by rw [hch]; rfl)⟩, h⟩⟩

theorem not_oversteps_of_no_children (hch : e.children? = none) :
    ¬ e.Oversteps limit depth path := by
  rintro ⟨⟨a, ha, hcontainer⟩, -⟩
  cases path with
  | nil =>
    obtain rfl := Option.some.inj ha
    have hsome := isSome_children?_iff.mpr hcontainer
    rw [hch] at hsome
    cases hsome
  | cons i path =>
    rw [at?_cons, hch] at ha
    cases ha

/-- A node below a child is one below the container, and deeper there by one. -/
theorem oversteps_cons (hch : e.children? = some children) : e.Oversteps limit depth (i :: path) ↔
    ∃ a, children.elements[i]? = some a ∧ a.Oversteps limit (depth + 1) path := by
  have hat : e.at? (i :: path) = (children.elements[i]?).bind (·.at? path) := by
    rw [at?, hch, Option.bind_some, Children.getElem?_elements]
  have hdepth : depth + (i :: path).length = depth + 1 + path.length := by
    rw [List.length_cons]
    omega
  constructor
  · rintro ⟨⟨b, hb, hcontainer⟩, hdeep⟩
    rw [hat] at hb
    obtain ⟨a, ha, hb⟩ := Option.bind_eq_some_iff.mp hb
    exact ⟨a, ha, ⟨b, hb, hcontainer⟩, hdepth ▸ hdeep⟩
  · rintro ⟨a, ha, ⟨b, hb, hcontainer⟩, hdeep⟩
    refine ⟨⟨b, ?_, hcontainer⟩, hdepth ▸ hdeep⟩
    rw [hat, ha]
    exact hb

theorem fits_iff_not_oversteps :
    e.Fits limit depth ↔ ∀ path, ¬ e.Oversteps limit depth path := by
  induction e using children_induction generalizing depth with
  | h e ih =>
    cases hch : e.children? with
    | none =>
      refine ⟨fun _ path => not_oversteps_of_no_children hch, fun _ => .inl ?_⟩
      rcases e with ⟨as, v, t⟩
      cases v <;> first | rfl | cases hch
    | some children =>
      rw [fits_iff_of_children hch]
      constructor
      · rintro ⟨hdepth, hfit⟩ path hpath
        cases path with
        | nil => exact Nat.not_le_of_lt hdepth ((oversteps_nil hch).mp hpath)
        | cons i path =>
          obtain ⟨a, ha, hpath⟩ := (oversteps_cons hch).mp hpath
          have hmem := List.mem_of_getElem? ha
          exact (ih children hch a hmem).mp (hfit a hmem) path hpath
      · intro h
        refine ⟨Nat.lt_of_not_le fun hdepth => h [] ((oversteps_nil hch).mpr hdepth), ?_⟩
        intro a hmem
        obtain ⟨i, ha⟩ := List.mem_iff_getElem?.mp hmem
        exact (ih children hch a hmem).mpr fun path hpath =>
          h (i :: path) ((oversteps_cons hch).mpr ⟨a, ha, hpath⟩)

theorem overstepsFirst_nil (hch : e.children? = some children) (hdepth : limit ≤ depth) :
    e.OverstepsFirst limit depth [] :=
  ⟨(oversteps_nil hch).mpr hdepth, fun q _ => List.not_lt_nil q⟩

/-- What may not be entered first is in the first child that does not fit. -/
theorem OverstepsFirst.cons {n : Nat} (h : a.OverstepsFirst limit (depth + 1) path)
    (hch : e.children? = some children) (hdepth : depth < limit)
    (hpassed : ∀ b ∈ children.elements.take n, b.Fits limit (depth + 1))
    (ha : children.elements[n]? = some a) : e.OverstepsFirst limit depth (n :: path) := by
  refine ⟨(oversteps_cons hch).mpr ⟨a, ha, h.oversteps⟩, ?_⟩
  intro q hq hbefore
  cases q with
  | nil => exact absurd ((oversteps_nil hch).mp hq) (Nat.not_le_of_lt hdepth)
  | cons i q =>
    obtain ⟨b, hb, hq⟩ := (oversteps_cons hch).mp hq
    rcases List.cons_lt_cons_iff.mp hbefore with hlt | ⟨rfl, hlt⟩
    · have hmem : b ∈ children.elements.take n := by
        refine List.mem_of_getElem? (i := i) ?_
        rw [List.getElem?_take_of_lt hlt]
        exact hb
      exact (fits_iff_not_oversteps.mp (hpassed b hmem) q hq).elim
    · obtain rfl := Option.some.inj (ha.symm.trans hb)
      exact h.first q hq hlt

theorem OverstepsFirst.unique (hp : e.OverstepsFirst limit depth p)
    (hq : e.OverstepsFirst limit depth q) : p = q :=
  List.le_antisymm (hp.first q hq.oversteps) (hq.first p hp.oversteps)

end Element

namespace Walk
variable {limit : Nat} {w w' : Walk} {e : Element} {children : Children}

/-- The walk after going down a path from the value that it is on: it steps in for each position,
and is on the child there. -/
def descend (w : Walk) : List Nat → Walk
  | [] => w
  | i :: path =>
    match w.current?.bind Element.children? with
    | some children => (w.inside ⟨children, .on i⟩).descend path
    | none => w

theorem descend_cons (he : w.current? = some e) (hch : e.children? = some children) (i : Nat)
    (path : List Nat) : w.descend (i :: path) = (w.inside ⟨children, .on i⟩).descend path := by
  simp [descend, he, hch]

/-- At the end of a path is the node that the path leads to, as much deeper as the path is long. -/
theorem descend_to {a : Element} {path : List Nat} (he : w.current? = some e)
    (ha : e.at? path = some a) : (w.descend path).current? = some a ∧
      (w.descend path).outer.length = w.outer.length + path.length := by
  induction path generalizing w e with
  | nil => exact ⟨he.trans ha, rfl⟩
  | cons i path ih =>
    rw [Element.at?] at ha
    obtain ⟨b, hb, ha⟩ := Option.bind_eq_some_iff.mp ha
    obtain ⟨children, hch, hb⟩ := Option.bind_eq_some_iff.mp hb
    rw [descend_cons he hch]
    obtain ⟨hcur, hdepth⟩ := ih (w := w.inside ⟨children, .on i⟩) hb ha
    refine ⟨hcur, hdepth.trans ?_⟩
    change w.outer.length + 1 + path.length = _
    rw [List.length_cons]
    omega

/-- Going down leaves the levels that were there, and those of the way so far. -/
theorem suffix_descend {p q : List Nat} (h : p <+: q) (w : Walk) :
    (w.descend p).levels <:+ (w.descend q).levels := by
  induction q generalizing p w with
  | nil =>
    obtain rfl := List.prefix_nil.mp h
    exact List.suffix_refl _
  | cons i q ih =>
    cases hch : w.current?.bind Element.children? with
    | none =>
      cases p with
      | nil => simp [descend, hch]
      | cons j p => simp [descend, hch]
    | some children =>
      cases p with
      | nil =>
        simp only [descend, hch]
        exact (List.suffix_cons _ _).trans (ih List.nil_prefix (w.inside ⟨children, .on i⟩))
      | cons j p =>
        obtain ⟨rfl, hp⟩ := List.cons_prefix_cons.mp h
        simp only [descend, hch]
        exact ih hp _

/-- The container at which loading is stopped is the first one that may not be entered. -/
theorem Barred.exists_path (h : Barred limit w w') (he : w.current? = some e) :
    ∃ path, e.OverstepsFirst limit w.outer.length path ∧ w' = w.descend path := by
  induction h generalizing e with
  | here he' hch hdepth =>
    obtain rfl := Option.some.inj (he.symm.trans he')
    exact ⟨[], Element.overstepsFirst_nil hch hdepth, rfl⟩
  | @inside w w' e' a children n he' hch hdepth hpassed ha _ ih =>
    obtain rfl := Option.some.inj (he.symm.trans he')
    obtain ⟨path, hfirst, rfl⟩ := ih (w.current?_inside_pass ha)
    refine ⟨n :: path, hfirst.cons hch hdepth hpassed ha, ?_⟩
    have hon : (Level.enter children).pass (n + 1) = ⟨children, .on n⟩ := by
      simp [Level.pass, Level.enter, Level.nextIndex]
    rw [hon, descend_cons he hch]

end Walk

/-- There are two ways in which loading within a limit ends. -/
theorem LoadsWithin.run_cases {limit : Nat} {p : Dialogue Element} {w : Walk} {e : Element}
    (h : LoadsWithin limit p w e) (he : w.current? = some e) :
    (e.Fits limit w.outer.length ∧ p.run Walk.cursor w = (.ok e, w)) ∨
      ∃ path, e.OverstepsFirst limit w.outer.length path ∧
        p.run Walk.cursor w = (.error (.fault (.tooDeep limit)), w.descend path) ∧
        (w.descend path).outer.length = max w.outer.length limit := by
  unfold LoadsWithin Ends at h
  rcases hrun : p.run Walk.cursor w with ⟨a | err | _, w'⟩
  · rw [hrun] at h
    obtain ⟨rfl, rfl, hfits⟩ := h
    exact .inl ⟨hfits, rfl⟩
  · rw [hrun] at h
    obtain ⟨rfl, hbarred, -⟩ := h
    have hdepth := hbarred.depth_eq
    obtain ⟨path, hfirst, rfl⟩ := hbarred.exists_path he
    exact .inr ⟨path, hfirst, rfl, hdepth⟩
  · rw [hrun] at h
    exact h.elim

theorem Element.Fits.not_first {limit depth : Nat} {e : Element} {path : List Nat}
    (h : e.Fits limit depth) : ¬ e.OverstepsFirst limit depth path :=
  fun hfirst => fits_iff_not_oversteps.mp h path hfirst.oversteps

/-- Nothing else matters for how it ends. -/
theorem LoadsWithin.run_eq_run {limit : Nat} {p q : Dialogue Element} {w : Walk} {e : Element}
    (hp : LoadsWithin limit p w e) (hq : LoadsWithin limit q w e) (he : w.current? = some e) :
    p.run Walk.cursor w = q.run Walk.cursor w := by
  rcases hp.run_cases he with ⟨hfits, hp⟩ | ⟨path, hfirst, hp, -⟩ <;>
    rcases hq.run_cases he with ⟨hfits', hq⟩ | ⟨path', hfirst', hq, -⟩
  · rw [hp, hq]
  · exact (hfits.not_first hfirst').elim
  · exact (hfits'.not_first hfirst).elim
  · rw [hp, hq, hfirst.unique hfirst']

/-- Loading an element at a depth that is compared, at every value, with that of the cursor. -/
def Loading.watched (limit : Option Nat) : Nat → Nat → Dialogue Element
  | 0, _ => .unfinished
  | fuel + 1, depth => do
    let view ← observe
    if view.depth = depth then node limit depth fuel (watched limit fuel (depth + 1))
    else .fail (.stranded view.depth depth)

def loadWatched (limit : Option Nat) (fuel : Nat) : Dialogue Element := do
  let view ← observe
  watched limit fuel view.depth

section
variable {σ ε : Type} {c : Cursor σ ε} {walk : σ → Walk} (hc : Follows c walk) {J : σ → Prop}
  (limit : Option Nat) {w : Walk} {e : Element} {fuel : Nat}
  (hk : KeptBelow c walk w.outer.length J) (he : w.current? = some e) (hfuel : e.size < fuel)
include hc hk he hfuel

/-- The depth that is counted is never another than that of a cursor that follows a walk. -/
theorem copies_watched : Copies c walk limit J (watched limit fuel w.outer.length) w e := by
  induction fuel generalizing e w with
  | zero => cases hfuel
  | succ fuel ih =>
    intro s past hs hJ
    have hle := Nat.le_of_lt_succ hfuel
    have hdepth : (c.view s).depth = w.outer.length := by
      rw [hc.view, hs]
      rfl
    have hnode : Copies c walk limit J
        (node limit w.outer.length fuel (watched limit fuel (w.outer.length + 1))) w e :=
      copies_node hc hk he hle fun children hch => copiesEach_of_smaller hk hch hle ih
    refine (goes_observe (Q := fun v s' _ => v.depth = w.outer.length ∧ s' = s)
      ⟨hdepth, rfl⟩).bind ?_
    rintro view s' past' ⟨hview, hs'⟩
    rw [if_pos hview, hs']
    exact hnode s past' hs hJ

theorem copies_loadWatched : Copies c walk limit J (loadWatched limit fuel) w e := by
  intro s past hs hJ
  have hdepth : (c.view s).depth = w.outer.length := by
    rw [hc.view, hs]
    rfl
  refine (goes_observe (Q := fun v s' _ => v.depth = w.outer.length ∧ s' = s)
    ⟨hdepth, rfl⟩).bind ?_
  rintro view s' past' ⟨hview, hs'⟩
  rw [hview, hs']
  exact copies_watched hc limit hk he hfuel s past' hs hJ

end

/-- From a walk that is on `e`, loading fails if and only if a container in `e` stands at the limit
or below it, and otherwise gives `e`, with the walk unmoved. Where it fails, the walk is left on the
first of these containers in document order, at the depth of the limit, or where it was if that is
deeper; and from there up, its levels are those of the way that leads there. To compare the depth
that is counted with that of the walk, at every value, changes nothing. -/
theorem load_up_to_limit (limit : Nat) {w : Walk} {e : Element} (he : w.current? = some e)
    {fuel : Nat} (hfuel : e.size < fuel) :
    let depth := w.view.depth
    let run := (load (some limit) fuel).run Walk.cursor w
    (run.1 = .error (.fault (.tooDeep limit)) ↔ ∃ path, e.Oversteps limit depth path) ∧
      ((∀ path, ¬ e.Oversteps limit depth path) → run = (.ok e, w)) ∧
      ((∃ path, e.Oversteps limit depth path) → ∃ path, e.OverstepsFirst limit depth path ∧
        run.2 = w.descend path ∧ run.2.view.depth = max depth limit ∧
        ∀ way, way <+: path → (∃ a, e.at? way = some a ∧ (w.descend way).current? = some a) ∧
          (w.descend way).view.depth = depth + way.length ∧
          (w.descend way).levels <:+ run.2.levels) ∧
      (loadWatched (some limit) fuel).run Walk.cursor w = run := by
  intro depth run
  have hload := loadsWithin_load limit he hfuel
  have hcopies := copies_loadWatched follows_walk (some limit) (keptBelow_true _ _ _) he hfuel
  have hwatched := hcopies.within.run_eq_run hload he
  rcases hload.run_cases he with ⟨hfits, hrun⟩ | ⟨path, hfirst, hrun, hdepth⟩
  · have hnone := Element.fits_iff_not_oversteps.mp hfits
    have hrun : run = (.ok e, w) := hrun
    refine ⟨?_, fun _ => hrun, ?_, hwatched⟩
    · rw [hrun]
      exact ⟨nofun, fun ⟨path, hpath⟩ => (hnone path hpath).elim⟩
    · rintro ⟨path, hpath⟩
      exact (hnone path hpath).elim
  · have hrun : run = (.error (.fault (.tooDeep limit)), w.descend path) := hrun
    refine ⟨?_, ?_, ?_, hwatched⟩
    · rw [hrun]
      exact ⟨fun _ => ⟨path, hfirst.oversteps⟩, fun _ => rfl⟩
    · intro hnone
      exact (hnone path hfirst.oversteps).elim
    · rintro -
      rw [hrun]
      refine ⟨path, hfirst, rfl, hdepth, ?_⟩
      intro way hway
      obtain ⟨a, ha⟩ := hfirst.oversteps.exists_at? hway
      obtain ⟨hcur, hlength⟩ := Walk.descend_to he ha
      exact ⟨⟨a, ha, hcur⟩, hlength, Walk.suffix_descend hway w⟩

/-- Inside a list, a limit of two is reached by what is in the second child. The first child is a
null of kind list, and is passed. -/
theorem load_up_to_limit_two :
    let inner := Element.ofValue (.sexp [.ofValue (.list [])])
    let e := Element.ofValue (.list [.ofValue (.null (.container .list)), inner])
    let items := [Element.ofScalar .int 1, e]
    let w : Walk := ⟨⟨.items items, .on 1⟩, [⟨.items [.ofValue (.list items)], .on 0⟩], .system⟩
    e.OverstepsFirst 2 w.view.depth [1] ∧
      ((load (some 2) 6).run Walk.cursor w).1 = .error (.fault (.tooDeep 2)) ∧
      ((load (some 2) 6).run Walk.cursor w).2 = w.descend [1] := by
  intro inner e items w
  have hinner : inner.OverstepsFirst 2 2 [] := Element.overstepsFirst_nil rfl (Nat.le_refl 2)
  have hfirst : e.OverstepsFirst 2 1 [1] := hinner.cons rfl (by decide) (by decide) rfl
  obtain ⟨hfails, -, hplace, -⟩ := load_up_to_limit 2 (w := w) (e := e) rfl (by decide : e.size < 6)
  obtain ⟨path, hpath, hrun, -⟩ := hplace ⟨[1], hfirst.oversteps⟩
  rw [hpath.unique hfirst] at hrun
  exact ⟨hfirst, hfails.mpr ⟨[1], hfirst.oversteps⟩, hrun⟩

end IonDocument
