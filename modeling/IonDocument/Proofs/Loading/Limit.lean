import IonDocument.Proofs.Loading.Copy

/-! # Loading under a limit

Over a walk, a limit on the depth either changes nothing or stops the loading before the first
container that would have its children too deep. The walk is then left on that container, at the
depth of the limit, or right where loading began if that was at the limit or below it.
-/
namespace IonDocument
open Dialogue Loading

/-- How loading `e` from `w` fails, and that it had to. -/
structure Stopped (limit : Nat) (w : Walk) (e : Element) (err : ReadError WalkError) (w' : Walk) :
    Prop where
  error : err = .fault (.tooDeep limit)
  place : w.Barred limit w'
  unfit : ¬ e.Fits limit w.outer.length

/-- Loading from `w`, where `e` is, gives `e` if it fits, and is stopped if it does not. -/
def LoadsWithin (limit : Nat) (p : Dialogue Element) (w : Walk) (e : Element) : Prop :=
  Ends Walk.cursor p w (fun a w' => a = e ∧ w' = w ∧ e.Fits limit w.outer.length)
    (Stopped limit w e)

theorem ends_ask_walk {q : Call} {a : q.Answer} {w w' : Walk}
    {E : ReadError WalkError → Walk → Prop} (h : Walk.cursor.perform q w = (.ok a, w')) :
    Ends Walk.cursor (ask q) w (fun b t => b = a ∧ t = w') E := by
  refine ends_ask ?_ ?_ <;> rw [h]
  · rintro b w' ⟨⟩
    exact ⟨rfl, rfl⟩
  · rintro e w' ⟨⟩

/-- Over a walk no call is refused. -/
theorem Copies.within {limit : Nat} {p : Dialogue Element} {w : Walk} {e : Element}
    (h : Copies Walk.cursor id (some limit) (fun _ => True) p w e) : LoadsWithin limit p w e := by
  refine (h w [] rfl trivial).ends.mono ?_ ?_
  · rintro a w' ⟨ha, hw', -, hfit⟩
    exact ⟨ha, hw', hfit limit rfl⟩
  · intro err w' hspoilt
    cases hspoilt with
    | refused hf _ _ => exact (not_falters_walk _ hf).elim
    | tooDeep hn hbarred hunfit _ =>
      obtain rfl := Option.some.inj hn
      exact ⟨rfl, hbarred, hunfit⟩

/-- The limit counts from the top of the document, wherever loading begins. -/
theorem loadsWithin_load (limit : Nat) {w : Walk} {e : Element} {fuel : Nat}
    (he : w.current? = some e) (hfuel : e.size < fuel) :
    LoadsWithin limit (load (some limit) fuel) w e :=
  (copies_load follows_walk (some limit) (keptBelow_true _ _ _) he hfuel).within

end IonDocument
