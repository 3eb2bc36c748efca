import IonDocument.Proofs.Element.Form

/-! # The text of a scalar identifies it

Scalars of one kind are compared by what their texts are made of. The text of a number is over where
a value is over, and all others say themselves where they are.
-/
namespace IonDocument
open Text

theorem Kind.nullChars_inj {k l : Kind} (h : k.nullChars = l.nullChars) : k = l := by
  have hall : ∀ k ∈ Kind.all, ∀ l ∈ Kind.all, k.nullChars = l.nullChars → k = l := by decide
  exact hall k k.mem_all l l.mem_all h

theorem Kind.nullChars_append_inj {k l : Kind} {r s : List Char} (hr : Leaves isOpen r)
    (hs : Leaves isOpen s) (h : k.nullChars ++ r = l.nullChars ++ s) : k = l ∧ r = s := by
  have hall : ∀ k ∈ Kind.all, k.nullChars.all isOpen = true := by decide
  obtain ⟨hkl, hrs⟩ := append_inj (List.all_eq_true.mp (hall k k.mem_all))
    (List.all_eq_true.mp (hall l l.mem_all)) hr hs h
  exact ⟨nullChars_inj hkl, hrs⟩

theorem Decimal.chars_inj {a b : Decimal} (h : a.chars = b.chars) : a = b := by
  obtain ⟨hcoefficient, hexponent⟩ := append_cons_inj (fun _ => Numeral.isIntChar_of_mem_int)
    (fun _ => Numeral.isIntChar_of_mem_int) (by decide) h
  rcases a with ⟨coefficient, scale⟩
  rcases b with ⟨coefficient', scale'⟩
  obtain rfl : coefficient = coefficient' := Numeral.int_inj hcoefficient
  obtain rfl : scale = scale' := Int.neg_inj.mp (Numeral.int_inj hexponent)
  rfl

namespace Scalar

theorem same_of_eq {k : ScalarKind} {p q : k.Payload} (h : p = q) : same ⟨k, p⟩ ⟨k, q⟩ = true := by
  rw [h]
  exact same_self _

theorem charsWith_append_inj {told : Timestamp → Bool} {stamp : Timestamp → List Char}
    (hstamp : Timestamp.IsStamp told stamp) {a b : Scalar} {r s : List Char}
    (ha : a.isLegible told = true) (hb : b.isLegible told = true) (hkind : a.kind = b.kind)
    (hr : Leaves isOpen r) (hs : Leaves isOpen s)
    (h : a.charsWith stamp ++ r = b.charsWith stamp ++ s) : a.same b = true ∧ r = s := by
  rcases a with ⟨k, p⟩
  rcases b with ⟨l, q⟩
  obtain rfl : k = l := hkind
  cases k with
  | bool =>
    cases p <;> cases q
    · exact ⟨rfl, List.append_cancel_left h⟩
    · cases h
    · cases h
    · exact ⟨rfl, List.append_cancel_left h⟩
  | int =>
    obtain ⟨hpq, hrs⟩ := append_inj (isNumber_int p).isOpen (isNumber_int q).isOpen hr hs h
    exact ⟨same_of_eq (Numeral.int_inj hpq), hrs⟩
  | float =>
    have hp : Binary64.isNaN p = false := by simpa [isLegible] using ha
    have hq : Binary64.isNaN q = false := by simpa [isLegible] using hb
    obtain ⟨hpq, hrs⟩ := append_inj (isNumber_float hp).isOpen (isNumber_float hq).isOpen hr hs h
    exact ⟨same_of_eq (Binary64.chars_inj hp hq hpq), hrs⟩
  | decimal =>
    obtain ⟨hpq, hrs⟩ := append_inj (isNumber_decimal p).isOpen (isNumber_decimal q).isOpen hr hs h
    exact ⟨same_of_eq (Decimal.chars_inj hpq), hrs⟩
  | timestamp =>
    obtain ⟨hpq, hrs⟩ := append_inj (hstamp.isNumber p).isOpen (hstamp.isNumber q).isOpen hr hs h
    exact ⟨same_of_eq (hstamp.inj p q ha hb hpq), hrs⟩
  | string =>
    obtain ⟨hpq, hrs⟩ := Escape.quoted_append_inj h
    exact ⟨same_of_eq (String.toList_inj.mp hpq), hrs⟩
  | symbol =>
    exact Token.chars_append_inj ha hb (leaves_of_isOpen (by decide) hr)
      (leaves_of_isOpen (by decide) hs) h
  | blob =>
    simp only [charsWith, List.cons_append, List.append_assoc, List.cons.injEq, true_and] at h
    obtain ⟨hpq, hrest⟩ := Base64.encode_append_inj (by decide) h
    exact ⟨same_of_eq hpq, (List.cons.inj hrest).2⟩
  | clob =>
    simp only [charsWith, List.cons_append, List.append_assoc, List.cons.injEq, true_and] at h
    obtain ⟨hpq, hrest⟩ := Escape.bytes_append_inj h
    exact ⟨same_of_eq hpq, (List.cons.inj (List.cons.inj hrest).2).2⟩

end Scalar
end IonDocument
