import IonDocument.Proofs.Element.Contents
import IonDocument.Proofs.Reader.Queue

/-! # A reader inside a container hands out its contents

A reader that is made right inside a container and is asked for one element after another gives the
answers that taking the contents of the container gives, to the end of them and beyond it.
-/
namespace IonDocument
namespace Queue

/-- Asked again and again, a queue hands out what waits, and then nothing. -/
theorem serve_next? {ε : Type} (k : Nat) (queue : Queue) :
    (serve (respond (ε := ε)) (List.replicate k .next?) queue).1 =
      (firstOf k queue.waiting).map fun o => ⟨.next?, .ok o⟩ := by
  induction k generalizing queue with
  | zero => simp [serve, firstOf]
  | succ k ih =>
    rw [List.replicate_succ, serve_cons, ih, firstOf_succ, fst_respond_next?, waiting_respond_next?]
    rfl

end Queue

namespace Reader
open Queue

/-- A reader over the inside of a container gives its elements in order, and then nothing. -/
theorem serve_next?_inside {w : Walk} {fuel : Nat} {e : Element} {children : Children} (hcurrent : w.current? = some e)
    (hchildren : e.children? = some children) (hfuel : itemsSize children.elements < fuel) (k : Nat) :
    (serve (respond Walk.cursor fuel) (List.replicate k .next?)
        (start Walk.cursor none w.stepIn.2)).1 =
      (firstOf k children.elements).map fun o => ⟨.next?, .ok o⟩ := by
  rw [Walk.stepIn_of_children hcurrent hchildren]
  have hinner := standsFor_start (w.inside (.enter children))
  rw [(hinner.serve hfuel _).1, Queue.serve_next?]
  rfl

/-- The contents of an element are its parts, then nothing for ever, and what is left of them is counted
exactly. A reader that starts right inside a container gives the same answers. -/
theorem contents_and_reader_agree (e : Element) :
    (∀ k, let taken := takeNext Contents.next k (.of e)
      taken.1 = (e.parts.take k).map some ++ List.replicate (k - e.parts.length) none ∧
        taken.2.sizeHint = (e.parts.length - k, some (e.parts.length - k)) ∧
        taken.2.size? = some (e.parts.length - k)) ∧
      (∀ k, let taken := takeNext Children.next k e.contents
        taken.1 = (takeNext Contents.next k (.of e)).1 ∧ taken.2.size = e.parts.length - k) ∧
      ∀ (w : Walk) children fuel, w.current? = some e → e.children? = some children →
        itemsSize children.elements < fuel →
        w.stepIn.1 = .ok () ∧ e.parts = children.elements ∧
          ∀ k, (serve (respond Walk.cursor fuel) (List.replicate k .next?)
              (start Walk.cursor none w.stepIn.2)).1 =
            (takeNext Contents.next k (.of e)).1.map fun o => ⟨.next?, .ok o⟩ := by
  refine ⟨?_, ?_, ?_⟩
  · intro k taken
    obtain ⟨hanswers, hleft⟩ := takeNext_of e k
    rw [Contents.sizeHint_eq, Contents.size?_eq, hleft, List.length_drop]
    exact ⟨hanswers, rfl, rfl⟩
  · intro k taken
    obtain ⟨hanswers, hleft⟩ := takeNext_contents e k
    rw [← Children.length_elements, hleft, List.length_drop]
    exact ⟨hanswers.trans (takeNext_of e k).1.symm, rfl⟩
  · intro w children fuel hcurrent hchildren hfuel
    have hstep := Walk.stepIn_of_children hcurrent hchildren
    have hparts := Element.parts_of_children hchildren
    refine ⟨congrArg Prod.fst hstep, hparts, ?_⟩
    intro k
    rw [serve_next?_inside hcurrent hchildren hfuel, (takeNext_of e k).1, hparts]

/-- Two fields of one name; a null of a container kind has no children and is taken itself. -/
theorem contents_of_struct :
    let inner := Element.ofValue (.list [.ofScalar .int 1])
    let null := Element.ofValue (.null (.container .list))
    let fields := [(Token.named "a", inner), (Token.named "a", null)]
    let e := Element.ofValue (.struct fields)
    let w : Walk := ⟨⟨.items [null, e], .on 1⟩, [], .system⟩
    w.current? = some e ∧ e.children? = some (.fields fields) ∧ itemsSize [inner, null] < 4 ∧
      (takeNext Contents.next 3 (.of e)).1 = [some inner, some null, none] ∧
      (takeNext Contents.next 2 (.of null)).1 = [some null, none] ∧
      (serve (respond Walk.cursor 4) [.next?, .next?, .next?] (start Walk.cursor none w.stepIn.2)).1 =
        [⟨.next?, .ok (some inner)⟩, ⟨.next?, .ok (some null)⟩, ⟨.next?, .ok none⟩] := by
  intro inner null fields e w
  obtain ⟨htaken, -, hreader⟩ := contents_and_reader_agree e
  have hsize : itemsSize [inner, null] < 4 := by decide
  obtain ⟨-, -, hreplies⟩ := hreader w (.fields fields) 4 rfl rfl hsize
  exact ⟨rfl, rfl, hsize, (htaken 3).1, ((contents_and_reader_agree null).1 2).1, hreplies 3⟩

end Reader
end IonDocument
