import IonDocument.Proofs.Element.Text
import IonDocument.Proofs.Text.Scan

/-! # Text that nothing in it breaks open

The text of every element is self-contained, whatever its strings, symbols and bytes are made of. Tokens
are words or quoted, numbers are written in plain characters, and all that is put around the pieces are
separators and pairs of brackets.
-/
namespace IonDocument
open Escape

/-- A word or quoted, also where there is neither text nor id. -/
theorem Token.isWord_or_quoted (token : Token) :
    isWord token.chars = true ∨ ∃ cs, token.chars = quoted .single cs := by
  cases h : token.isLegible with
  | true =>
    rcases (spelling h).isWord_or with hword | ⟨text, -, hquoted⟩
    · exact .inl hword
    · exact .inr ⟨_, hquoted⟩
  | false =>
    rcases token with ⟨_ | text, _ | id⟩
    · exact .inl (isWord_nat 0)
    · cases h
    · cases h
    · cases h

theorem Token.selfContained (token : Token) : SelfContained token.chars := by
  rcases token.isWord_or_quoted with hword | ⟨cs, hquoted⟩
  · exact selfContained_of_class (p := isWordChar) (by decide) fun _ => isWordChar_of_mem hword
  · rw [hquoted]
    exact selfContained_quoted _ _

theorem Numeral.selfContained_int (n : Int) : SelfContained (int n) :=
  selfContained_of_class (p := isIntChar) (by decide) fun _ => isIntChar_of_mem_int

theorem Decimal.selfContained (d : Decimal) : SelfContained d.chars :=
  (Numeral.selfContained_int _).append ((Numeral.selfContained_int _).cons rfl)

theorem Binary64.selfContained (x : Binary64) : SelfContained x.chars := by
  cases h : x.isNaN with
  | true =>
    rw [chars, if_pos h]
    exact selfContained_of_all rfl
  | false => exact selfContained_of_class (p := isFloatChar) (by decide) fun _ => isFloatChar_of_mem h

theorem Timestamp.selfContained (t : Timestamp) : SelfContained t.chars :=
  selfContained_of_class (p := isTimestampChar) (by decide) fun _ => isTimestampChar_of_mem

theorem Base64.selfContained (bs : List UInt8) : SelfContained (encode bs) :=
  selfContained_of_class (p := isCode) (by decide) fun _ => isCode_of_mem_encode

theorem SelfContained.braced {cs : List Char} (h : SelfContained cs) :
    SelfContained ('{' :: '{' :: cs ++ ['}', '}']) := by
  have hbraced : '{' :: '{' :: cs ++ ['}', '}'] = '{' :: ('{' :: (cs ++ ['}']) ++ ['}']) := by simp
  rw [hbraced]
  have hpair : ('{', '}') ∈ bracketPairs := by decide
  exact (h.bracketed hpair).bracketed hpair

theorem Scalar.selfContained {stamp : Timestamp → List Char}
    (hstamp : ∀ t, SelfContained (stamp t)) (s : Scalar) : SelfContained (s.charsWith stamp) := by
  rcases s with ⟨k, p⟩
  cases k with
  | bool => cases p <;> exact selfContained_of_all rfl
  | int => exact Numeral.selfContained_int p
  | float => exact Binary64.selfContained p
  | decimal => exact Decimal.selfContained p
  | timestamp => exact hstamp p
  | string => exact selfContained_quoted _ _
  | symbol => exact Token.selfContained p
  | blob => exact (Base64.selfContained p).braced
  | clob =>
    have h := (selfContained_bytes p).braced
    simp only [List.cons_append, List.append_assoc, List.nil_append] at h
    exact h

theorem Kind.selfContained_null (k : Kind) : SelfContained k.nullChars := by
  have hall : ∀ k ∈ Kind.all, k.nullChars.all (fun c => c.isLower || c = '.') = true := by decide
  exact selfContained_of_class (by decide) (List.all_eq_true.mp (hall k k.mem_all))

theorem selfContained_annotationChars (annotations : List Token) :
    SelfContained (annotationChars annotations) :=
  selfContained_flatMap (fun a => a.selfContained.append (selfContained_of_all rfl)) annotations

theorem selfContained_afterPiece {α : Type} {f : List α → List Char} {separator : Char}
    {rest : List α} (hseparator : isPlain separator = true) (h : SelfContained (f rest)) :
    SelfContained (afterPiece f separator [] rest) := by
  cases rest with
  | nil => exact selfContained_nil
  | cons a rest => exact (h.append selfContained_nil).cons hseparator

variable {stamp : Timestamp → List Char}

mutual
theorem Element.selfContained (hstamp : ∀ t, SelfContained (stamp t)) :
    (e : Element) → SelfContained (e.charsWith stamp)
  | ⟨as, v, _⟩ => (selfContained_annotationChars as).append (Value.selfContained hstamp v)
theorem Value.selfContained (hstamp : ∀ t, SelfContained (stamp t)) :
    (v : Value) → SelfContained (v.charsWith stamp)
  | .null k => k.selfContained_null
  | .scalar s => s.selfContained hstamp
  | .struct fields => (selfContained_fieldChars hstamp fields).bracketed (by decide)
  | .list items => (selfContained_itemChars hstamp ',' rfl items).bracketed (by decide)
  | .sexp items => (selfContained_itemChars hstamp ' ' rfl items).bracketed (by decide)
theorem selfContained_itemChars (hstamp : ∀ t, SelfContained (stamp t)) (separator : Char)
    (hseparator : isPlain separator = true) : (items : List Element) → SelfContained (itemCharsWith stamp separator items)
  | [] => selfContained_nil
  | e :: rest => by
    have hrest := selfContained_itemChars hstamp separator hseparator rest
    rw [← List.append_nil (itemCharsWith ..), itemCharsWith_cons]
    exact (Element.selfContained hstamp e).append (selfContained_afterPiece hseparator hrest)
theorem selfContained_fieldChars (hstamp : ∀ t, SelfContained (stamp t)) :
    (fields : List (Token × Element)) → SelfContained (fieldCharsWith stamp fields)
  | [] => selfContained_nil
  | (name, e) :: rest => by
    have hrest := selfContained_fieldChars hstamp rest
    rw [← List.append_nil (fieldCharsWith ..), fieldCharsWith_cons]
    have hafter : SelfContained (afterPiece (fieldCharsWith stamp) ',' [] rest) :=
      selfContained_afterPiece rfl hrest
    exact name.selfContained.append (((Element.selfContained hstamp e).append hafter).cons rfl)
end

/-- The text of an element has no control characters, so it is one line, and a scanner that goes over it
ends outside of quotes, with no bracket open, and without having met one in the wrong place. After no
number of characters or bytes in quotes is it outside of them. -/
theorem Element.text_self_contained (e : Element) :
    e.text.toList.all (fun c => !isControl c) = true ∧ Scan.start.run e.text.toList = some .start ∧
      (∀ q cs opened, Scan.run ⟨.outside, opened⟩ (q.char :: Escape.text q cs) =
        some ⟨.inside q.char, opened⟩) ∧
      ∀ bs opened, Scan.run ⟨.outside, opened⟩ ('"' :: bytes bs) = some ⟨.inside '"', opened⟩ := by
  have h := Element.selfContained Timestamp.selfContained e
  rw [text, textWith, String.toList_ofList]
  refine ⟨?_, h.scan [], fun q => Scan.run_between (escaped_character q),
    Scan.run_between (q := .double) escaped_byte⟩
  rw [List.all_eq_true]
  intro c hc
  rw [h.noControl c hc]
  rfl

end IonDocument
