import IonDocument.Proofs.Scalar

/-! # Text determines the element

Elements that are the same in the data model have one text, in whatever way timestamps are written.
The converse is read off the texts from the left: what begins alike is of one form, and its parts are
the same one by one, as long as every part says itself where it is over. Of the way in which
timestamps are written it uses only what makes it a stamp.
-/
namespace IonDocument
open Text

section
variable (told : Timestamp → Bool)

mutual
/-- No NaN, no timestamp that is not `told` and no token without text and id, at any node. -/
def Element.isLegible : Element → Bool
  | ⟨as, v, _⟩ => as.all Token.isLegible && v.isLegible
def Value.isLegible : Value → Bool
  | .null _ => true
  | .scalar s => s.isLegible told
  | .struct fields => areFieldsLegible fields
  | .list items => areItemsLegible items
  | .sexp items => areItemsLegible items
def areItemsLegible : List Element → Bool
  | [] => true
  | e :: rest => e.isLegible && areItemsLegible rest
def areFieldsLegible : List (Token × Element) → Bool
  | [] => true
  | (name, e) :: rest => name.isLegible && e.isLegible && areFieldsLegible rest
end

end

section
variable {α : Type} {f : List α → List Char} {separator stop : Char} {as bs : List α}
  {r s tail : List Char}

/-- What comes after one of several pieces: the others behind a separator, or what follows the last
one. -/
def afterPiece (f : List α → List Char) (separator : Char) (tail : List Char) : List α → List Char
  | [] => tail
  | a :: rest => separator :: (f (a :: rest) ++ tail)

theorem leaves_afterPiece (f : List α → List Char) (rest : List α)
    (hseparator : isOpen separator = false) (htail : Leaves isOpen tail) :
    Leaves isOpen (afterPiece f separator tail rest) := by
  cases rest with
  | nil => exact htail
  | cons a rest => exact leaves_cons hseparator

theorem afterPiece_congr (hf : f as = f bs) (hempty : as.isEmpty = bs.isEmpty) :
    afterPiece f separator tail as = afterPiece f separator tail bs := by
  cases as with
  | nil =>
    cases bs with
    | nil => rfl
    | cons b bs => cases hempty
  | cons a as =>
    cases bs with
    | nil => cases hempty
    | cons b bs => rw [afterPiece, afterPiece, hf]

/-- The separator tells whether there are other pieces. -/
theorem afterPiece_inj (hne : stop ≠ separator) (hnil : f [] = [])
    (h : afterPiece f separator (stop :: r) as = afterPiece f separator (stop :: s) bs) :
    f as ++ stop :: r = f bs ++ stop :: s := by
  cases as with
  | nil =>
    cases bs with
    | nil =>
      rw [hnil]
      exact h
    | cons b bs => exact absurd (List.cons.inj h).1 hne
  | cons a as =>
    cases bs with
    | nil => exact absurd (List.cons.inj h).1.symm hne
    | cons b bs => exact (List.cons.inj h).2

end

section
variable {stamp : Timestamp → List Char}

theorem itemCharsWith_cons (separator : Char) (e : Element) (rest : List Element)
    (tail : List Char) : itemCharsWith stamp separator (e :: rest) ++ tail =
      e.charsWith stamp ++ afterPiece (itemCharsWith stamp separator) separator tail rest := by
  cases rest with
  | nil => rfl
  | cons e' rest => simp only [itemCharsWith, afterPiece, List.append_assoc, List.cons_append]

theorem fieldCharsWith_cons (name : Token) (e : Element) (rest : List (Token × Element))
    (tail : List Char) : fieldCharsWith stamp ((name, e) :: rest) ++ tail =
      name.chars ++ ':' :: (e.charsWith stamp ++ afterPiece (fieldCharsWith stamp) ',' tail rest) := by
  cases rest with
  | nil => simp only [fieldCharsWith, afterPiece, List.append_assoc, List.cons_append]
  | cons f rest => simp only [fieldCharsWith, afterPiece, List.append_assoc, List.cons_append]

end

theorem isEmpty_eq_of_sameItems {as bs : List Element} (h : sameItems as bs = true) :
    as.isEmpty = bs.isEmpty := by
  cases as <;> cases bs <;> simp_all [sameItems]

theorem isEmpty_eq_of_sameFields {as bs : List (Token × Element)} (h : sameFields as bs = true) :
    as.isEmpty = bs.isEmpty := by
  cases as <;> cases bs <;> simp_all [sameFields]

theorem Token.chars_eq_of_same {a b : Token} (h : a.same b = true) : a.chars = b.chars := by
  rcases a with ⟨_ | text, id⟩ <;> rcases b with ⟨_ | text', id'⟩ <;> simp_all [same, chars]

theorem annotationChars_eq_of_same {as bs : List Token} (h : Token.sameAll as bs = true) :
    annotationChars as = annotationChars bs := by
  induction as generalizing bs with
  | nil =>
    cases bs with
    | nil => rfl
    | cons b bs => cases h
  | cons a as ih =>
    cases bs with
    | nil => cases h
    | cons b bs =>
      simp only [Token.sameAll, Bool.and_eq_true] at h
      have hrest := ih h.2
      simp only [annotationChars, List.flatMap_cons] at hrest ⊢
      rw [Token.chars_eq_of_same h.1, hrest]

section
variable (stamp : Timestamp → List Char)

theorem Scalar.charsWith_eq_of_same {a b : Scalar} (h : a.same b = true) :
    a.charsWith stamp = b.charsWith stamp := by
  unfold same at h
  split at h
  · exact Token.chars_eq_of_same h
  · rw [of_decide_eq_true h]

mutual
theorem Element.charsWith_eq_of_same : (a b : Element) → a.same b = true →
    a.charsWith stamp = b.charsWith stamp
  | ⟨as, v, _⟩, ⟨bs, w, _⟩, h => by
    simp only [Element.same, Bool.and_eq_true] at h
    have hannotations := annotationChars_eq_of_same h.1
    have hvalue := Value.charsWith_eq_of_same v w h.2
    rw [Element.charsWith, Element.charsWith, hannotations, hvalue]
theorem Value.charsWith_eq_of_same : (v w : Value) → v.same w = true →
    v.charsWith stamp = w.charsWith stamp
  | .null k, w, h => by
    cases w with
    | null l =>
      simp only [Value.same, decide_eq_true_eq] at h
      rw [h]
    | _ => simp [Value.same] at h
  | .scalar a, w, h => by
    cases w with
    | scalar b =>
      simp only [Value.same] at h
      exact Scalar.charsWith_eq_of_same stamp h
    | _ => simp [Value.same] at h
  | .struct as, w, h => by
    cases w with
    | struct bs =>
      simp only [Value.same] at h
      rw [Value.charsWith, Value.charsWith, fieldCharsWith_eq_of_same as bs h]
    | _ => simp [Value.same] at h
  | .list as, w, h => by
    cases w with
    | list bs =>
      simp only [Value.same] at h
      rw [Value.charsWith, Value.charsWith, itemCharsWith_eq_of_same ',' as bs h]
    | _ => simp [Value.same] at h
  | .sexp as, w, h => by
    cases w with
    | sexp bs =>
      simp only [Value.same] at h
      rw [Value.charsWith, Value.charsWith, itemCharsWith_eq_of_same ' ' as bs h]
    | _ => simp [Value.same] at h
theorem itemCharsWith_eq_of_same (separator : Char) : (as bs : List Element) →
    sameItems as bs = true → itemCharsWith stamp separator as = itemCharsWith stamp separator bs
  | [], [], _ => rfl
  | [], _ :: _, h => by simp [sameItems] at h
  | _ :: _, [], h => by simp [sameItems] at h
  | a :: as, b :: bs, h => by
    simp only [sameItems, Bool.and_eq_true] at h
    have hhead := Element.charsWith_eq_of_same a b h.1
    have hrest := itemCharsWith_eq_of_same separator as bs h.2
    rw [← List.append_nil (itemCharsWith ..), ← List.append_nil (itemCharsWith _ _ (b :: bs)),
      itemCharsWith_cons, itemCharsWith_cons, hhead,
      afterPiece_congr hrest (isEmpty_eq_of_sameItems h.2)]
theorem fieldCharsWith_eq_of_same : (as bs : List (Token × Element)) →
    sameFields as bs = true → fieldCharsWith stamp as = fieldCharsWith stamp bs
  | [], [], _ => rfl
  | [], _ :: _, h => by simp [sameFields] at h
  | _ :: _, [], h => by simp [sameFields] at h
  | (m, a) :: as, (n, b) :: bs, h => by
    simp only [sameFields, Bool.and_eq_true] at h
    have hname := Token.chars_eq_of_same h.1.1
    have hhead := Element.charsWith_eq_of_same a b h.1.2
    have hrest := fieldCharsWith_eq_of_same as bs h.2
    rw [← List.append_nil (fieldCharsWith ..), ← List.append_nil (fieldCharsWith _ ((n, b) :: bs)),
      fieldCharsWith_cons, fieldCharsWith_cons, hname, hhead,
      afterPiece_congr hrest (isEmpty_eq_of_sameFields h.2)]
end

end

theorem Token.begins_isOpen {a : Token} (h : a.isLegible = true) : Begins isOpen a.chars := by
  apply (begins_chars h).mono
  intro c hc
  exact isOpen_of (p := fun c => isWordStart c || c = '\'') (by decide) hc

section
variable {told : Timestamp → Bool} {stamp : Timestamp → List Char}
  (hstamp : Timestamp.IsStamp told stamp)
include hstamp

theorem Scalar.begins_charsWith {a : Scalar} (h : a.isLegible told = true) :
    Begins isOpen (a.charsWith stamp) := by
  have hnumber : ∀ k cs, IsNumber k cs → Begins isOpen cs := fun k cs h => h.begins.mono
    fun _ => isOpen_of (by decide)
  rcases a with ⟨k, p⟩
  cases k with
  | bool => cases p <;> exact begins_cons (by decide)
  | int => exact hnumber _ _ (isNumber_int p)
  | float =>
    have hp : Binary64.isNaN p = false := by simpa [isLegible] using h
    exact hnumber _ _ (isNumber_float hp)
  | decimal => exact hnumber _ _ (isNumber_decimal p)
  | timestamp => exact hnumber _ _ (hstamp.isNumber p)
  | string => exact begins_cons (by decide)
  | symbol => exact Token.begins_isOpen h
  | blob => exact begins_cons (by decide)
  | clob => exact begins_cons (by decide)

theorem Value.begins_charsWith {v : Value} (h : v.isLegible told = true) :
    Begins isOpen (v.charsWith stamp) := by
  cases v with
  | null k =>
    rw [Value.charsWith]
    cases k <;> exact begins_cons (by decide)
  | scalar a =>
    rw [Value.isLegible] at h
    rw [Value.charsWith]
    exact Scalar.begins_charsWith hstamp h
  | struct fields => exact begins_cons (by decide)
  | list items => exact begins_cons (by decide)
  | sexp items => exact begins_cons (by decide)

theorem Element.begins_charsWith {e : Element} (h : e.isLegible told = true) :
    Begins isOpen (e.charsWith stamp) := by
  rcases e with ⟨as, v, t⟩
  rw [Element.isLegible, Bool.and_eq_true] at h
  rw [Element.charsWith]
  cases as with
  | nil => exact Value.begins_charsWith hstamp h.2
  | cons a as =>
    have ha : a.isLegible = true := List.all_eq_true.mp h.1 a List.mem_cons_self
    simp only [annotationChars, List.flatMap_cons, List.append_assoc]
    exact (Token.begins_isOpen ha).append _

theorem Value.formOf_append {v : Value} (h : v.isLegible told = true) {r : List Char}
    (hr : Leaves isOpen r) : formOf (v.charsWith stamp ++ r) = v.form := by
  cases v with
  | null k =>
    rw [Value.charsWith]
    exact formOf_null k hr
  | scalar a =>
    rw [Value.isLegible] at h
    rw [Value.charsWith]
    exact Scalar.formOf_append hstamp h hr
  | struct fields =>
    rw [Value.charsWith]
    cases fields with
    | nil => rfl
    | cons f fields =>
      simp only [Value.isLegible, areFieldsLegible, Bool.and_eq_true] at h
      rw [List.cons_append, List.cons_append, List.append_assoc, fieldCharsWith_cons]
      exact braceForm_struct ((Token.begins_chars h.1.1).append _) (by decide)
  | list items => rfl
  | sexp items => rfl

/-- A value does not begin like an annotation. -/
theorem Value.charsWith_append_ne {v : Value} {a : Token} {r s : List Char}
    (hv : v.isLegible told = true) (ha : a.isLegible = true) (hr : Leaves isOpen r) :
    v.charsWith stamp ++ r ≠ a.chars ++ ':' :: s := by
  intro h
  have hform := formOf_append hstamp hv hr
  have hcolon : Leaves Token.isWordChar (':' :: s) := leaves_cons (by decide)
  rw [h, formOf_token ha hcolon] at hform
  rcases v with k | ⟨k, p⟩ | _ | _ | _ <;> try cases hform
  rw [Value.isLegible] at hv
  rw [Value.charsWith] at h
  obtain ⟨-, rfl⟩ := Token.chars_append_inj hv ha (leaves_of_isOpen (by decide) hr) hcolon h
  cases hr

theorem annotationChars_append_inj {as bs : List Token} {v w : Value} {r s : List Char}
    (has : as.all Token.isLegible = true) (hbs : bs.all Token.isLegible = true)
    (hv : v.isLegible told = true) (hw : w.isLegible told = true) (hr : Leaves isOpen r)
    (hs : Leaves isOpen s)
    (h : annotationChars as ++ (v.charsWith stamp ++ r) =
      annotationChars bs ++ (w.charsWith stamp ++ s)) :
    Token.sameAll as bs = true ∧ v.charsWith stamp ++ r = w.charsWith stamp ++ s := by
  have hcons : ∀ a as r, annotationChars (a :: as) ++ r =
      a.chars ++ ':' :: ':' :: (annotationChars as ++ r) := by
    intro a as r
    simp only [annotationChars, List.flatMap_cons, List.append_assoc, List.cons_append,
      List.nil_append]
  induction as generalizing bs with
  | nil =>
    cases bs with
    | nil => exact ⟨rfl, h⟩
    | cons b bs =>
      have hb : b.isLegible = true := List.all_eq_true.mp hbs b List.mem_cons_self
      rw [hcons] at h
      exact absurd h (Value.charsWith_append_ne hstamp hv hb hr)
  | cons a as ih =>
    rw [List.all_cons, Bool.and_eq_true] at has
    rw [hcons] at h
    cases bs with
    | nil => exact absurd h.symm (Value.charsWith_append_ne hstamp hw has.1 hs)
    | cons b bs =>
      rw [List.all_cons, Bool.and_eq_true] at hbs
      rw [hcons] at h
      obtain ⟨hab, hrest⟩ := Token.chars_append_inj has.1 hbs.1 (leaves_cons (by decide))
        (leaves_cons (by decide)) h
      obtain ⟨hall, hvw⟩ := ih has.2 hbs.2 (List.cons.inj (List.cons.inj hrest).2).2
      rw [Token.sameAll, hab, hall]
      exact ⟨rfl, hvw⟩

theorem Value.form_eq_of_append {v w : Value} {r s : List Char} (hv : v.isLegible told = true)
    (hw : w.isLegible told = true) (hr : Leaves isOpen r) (hs : Leaves isOpen s)
    (h : v.charsWith stamp ++ r = w.charsWith stamp ++ s) : v.form = w.form := by
  rw [← formOf_append hstamp hv hr, h, formOf_append hstamp hw hs]

end

variable {told : Timestamp → Bool} {stamp : Timestamp → List Char}

mutual
/-- An element is read off the beginning of a text up to what cannot belong to it. -/
theorem Element.charsWith_append_inj (hstamp : Timestamp.IsStamp told stamp) : (a b : Element) →
    {r s : List Char} → a.isLegible told = true → b.isLegible told = true → Leaves isOpen r →
    Leaves isOpen s → a.charsWith stamp ++ r = b.charsWith stamp ++ s → a.same b = true ∧ r = s
  | ⟨as, v, _⟩, ⟨bs, w, _⟩, r, s, ha, hb, hr, hs, h => by
    rw [Element.isLegible, Bool.and_eq_true] at ha hb
    rw [Element.charsWith, Element.charsWith, List.append_assoc, List.append_assoc] at h
    obtain ⟨hannotations, hvalue⟩ := annotationChars_append_inj hstamp ha.1 hb.1 ha.2 hb.2 hr hs h
    obtain ⟨hsame, hrs⟩ := Value.charsWith_append_inj hstamp v w ha.2 hb.2 hr hs hvalue
    rw [Element.same, hannotations, hsame]
    exact ⟨rfl, hrs⟩
theorem Value.charsWith_append_inj (hstamp : Timestamp.IsStamp told stamp) : (v w : Value) →
    {r s : List Char} → v.isLegible told = true → w.isLegible told = true → Leaves isOpen r →
    Leaves isOpen s → v.charsWith stamp ++ r = w.charsWith stamp ++ s → v.same w = true ∧ r = s
  | .null k, w, r, s, hv, hw, hr, hs, h => by
    have hform := Value.form_eq_of_append hstamp hv hw hr hs h
    cases w with
    | null l =>
      rw [Value.charsWith, Value.charsWith] at h
      obtain ⟨rfl, hrs⟩ := Kind.nullChars_append_inj hr hs h
      exact ⟨by simp [Value.same], hrs⟩
    | _ => cases hform
  | .scalar a, w, r, s, hv, hw, hr, hs, h => by
    have hform := Value.form_eq_of_append hstamp hv hw hr hs h
    cases w with
    | scalar b =>
      rw [Value.isLegible] at hv hw
      rw [Value.charsWith, Value.charsWith] at h
      rw [Value.same]
      exact Scalar.charsWith_append_inj hstamp hv hw (Kind.scalar.inj hform) hr hs h
    | _ => cases hform
  | .struct as, w, r, s, hv, hw, hr, hs, h => by
    have hform := Value.form_eq_of_append hstamp hv hw hr hs h
    cases w with
    | struct bs =>
      rw [Value.isLegible] at hv hw
      simp only [Value.charsWith, List.cons_append, List.append_assoc, List.cons.injEq, true_and] at h
      rw [Value.same]
      exact fieldCharsWith_append_inj hstamp as bs hv hw h
    | _ => cases hform
  | .list as, w, r, s, hv, hw, hr, hs, h => by
    have hform := Value.form_eq_of_append hstamp hv hw hr hs h
    cases w with
    | list bs =>
      rw [Value.isLegible] at hv hw
      simp only [Value.charsWith, List.cons_append, List.append_assoc, List.cons.injEq, true_and] at h
      rw [Value.same]
      exact itemCharsWith_append_inj hstamp (by decide) (by decide) (by decide) as bs hv hw h
    | _ => cases hform
  | .sexp as, w, r, s, hv, hw, hr, hs, h => by
    have hform := Value.form_eq_of_append hstamp hv hw hr hs h
    cases w with
    | sexp bs =>
      rw [Value.isLegible] at hv hw
      simp only [Value.charsWith, List.cons_append, List.append_assoc, List.cons.injEq, true_and] at h
      rw [Value.same]
      exact itemCharsWith_append_inj hstamp (by decide) (by decide) (by decide) as bs hv hw h
    | _ => cases hform
theorem itemCharsWith_append_inj (hstamp : Timestamp.IsStamp told stamp) {separator stop : Char}
    (hseparator : isOpen separator = false) (hstop : isOpen stop = false) (hne : stop ≠ separator) :
    (as bs : List Element) → {r s : List Char} → areItemsLegible told as = true →
    areItemsLegible told bs = true →
    itemCharsWith stamp separator as ++ stop :: r = itemCharsWith stamp separator bs ++ stop :: s →
    sameItems as bs = true ∧ r = s
  | [], [], r, s, _, _, h => ⟨by rw [sameItems], (List.cons.inj h).2⟩
  | [], b :: bs, r, s, _, hb, h => by
    rw [areItemsLegible, Bool.and_eq_true] at hb
    rw [itemCharsWith_cons] at h
    exact absurd h.symm ((Element.begins_charsWith hstamp hb.1).append_ne hstop)
  | a :: as, [], r, s, ha, _, h => by
    rw [areItemsLegible, Bool.and_eq_true] at ha
    rw [itemCharsWith_cons] at h
    exact absurd h ((Element.begins_charsWith hstamp ha.1).append_ne hstop)
  | a :: as, b :: bs, r, s, ha, hb, h => by
    rw [areItemsLegible, Bool.and_eq_true] at ha hb
    rw [itemCharsWith_cons, itemCharsWith_cons] at h
    obtain ⟨hhead, hafter⟩ := Element.charsWith_append_inj hstamp a b ha.1 hb.1
      (leaves_afterPiece _ as hseparator (leaves_cons hstop))
      (leaves_afterPiece _ bs hseparator (leaves_cons hstop)) h
    have hrest := afterPiece_inj hne rfl hafter
    rw [sameItems, hhead, Bool.true_and]
    exact itemCharsWith_append_inj hstamp hseparator hstop hne as bs ha.2 hb.2 hrest
theorem fieldCharsWith_append_inj (hstamp : Timestamp.IsStamp told stamp) :
    (as bs : List (Token × Element)) → {r s : List Char} → areFieldsLegible told as = true →
    areFieldsLegible told bs = true →
    fieldCharsWith stamp as ++ '}' :: r = fieldCharsWith stamp bs ++ '}' :: s →
    sameFields as bs = true ∧ r = s
  | [], [], r, s, _, _, h => ⟨by rw [sameFields], (List.cons.inj h).2⟩
  | [], (n, b) :: bs, r, s, _, hb, h => by
    simp only [areFieldsLegible, Bool.and_eq_true] at hb
    rw [fieldCharsWith_cons] at h
    exact absurd h.symm ((Token.begins_isOpen hb.1.1).append_ne (by decide))
  | (m, a) :: as, [], r, s, ha, _, h => by
    simp only [areFieldsLegible, Bool.and_eq_true] at ha
    rw [fieldCharsWith_cons] at h
    exact absurd h ((Token.begins_isOpen ha.1.1).append_ne (by decide))
  | (m, a) :: as, (n, b) :: bs, r, s, ha, hb, h => by
    simp only [areFieldsLegible, Bool.and_eq_true] at ha hb
    rw [fieldCharsWith_cons, fieldCharsWith_cons] at h
    obtain ⟨hname, hvalue⟩ := Token.chars_append_inj ha.1.1 hb.1.1 (leaves_cons (by decide))
      (leaves_cons (by decide)) h
    obtain ⟨hhead, hafter⟩ := Element.charsWith_append_inj hstamp a b ha.1.2 hb.1.2
      (leaves_afterPiece _ as (by decide) (leaves_cons (by decide)))
      (leaves_afterPiece _ bs (by decide) (leaves_cons (by decide))) (List.cons.inj hvalue).2
    have hrest := afterPiece_inj (by decide) rfl hafter
    rw [sameFields, hname, hhead, Bool.true_and, Bool.true_and]
    exact fieldCharsWith_append_inj hstamp as bs ha.2 hb.2 hrest
end

/-- The same elements have the same text. Legible elements of one text are the same: in whatever way
timestamps are written, if it tells those in whole minutes apart, and as they are written here, if
their leap seconds end a minute. -/
theorem Element.text_determines (a b : Element) :
    (a.same b = true → a.text = b.text ∧ ∀ stamp, a.textWith stamp = b.textWith stamp) ∧
      (∀ stamp, Timestamp.IsStamp Timestamp.isInMinutes stamp →
        a.isLegible Timestamp.isInMinutes = true → b.isLegible Timestamp.isInMinutes = true →
        a.textWith stamp = b.textWith stamp → a.same b = true) ∧
      (a.isLegible Timestamp.isRegular = true → b.isLegible Timestamp.isRegular = true →
        a.text = b.text → a.same b = true) := by
  have hsame : a.same b = true → ∀ stamp, a.textWith stamp = b.textWith stamp := by
    intro h stamp
    exact congrArg String.ofList (Element.charsWith_eq_of_same stamp a b h)
  have hinj : ∀ told stamp, Timestamp.IsStamp told stamp → a.isLegible told = true →
      b.isLegible told = true → a.textWith stamp = b.textWith stamp → a.same b = true := by
    intro told stamp hstamp ha hb h
    have hchars : a.charsWith stamp ++ [] = b.charsWith stamp ++ [] := by
      rw [String.ofList_inj.mp h]
    exact (Element.charsWith_append_inj hstamp a b ha hb (leaves_nil _) (leaves_nil _) hchars).1
  refine ⟨?_, ?_, ?_⟩
  · intro h
    exact ⟨hsame h _, hsame h⟩
  · intro stamp hstamp
    exact hinj _ stamp hstamp
  · intro ha hb h
    exact hinj _ _ Timestamp.isStamp_chars ha hb h

/-- Neither an id beside a text nor a table is seen in the text, and a leap second is. -/
theorem text_of_ids_and_tables :
    let leap := Element.ofScalar .timestamp (.mk 1483228799 1500000000 3600)
    let field := (Token.named "$7", Element.ofValue (.list [.ofScalar .symbol (.numbered 7), leap]))
    let a : Element := ⟨[⟨some "a", some 10⟩], .struct [field], .ofLocals [some "a"]⟩
    let b : Element := ⟨[.named "a"], .struct [field], .system⟩
    let stamp := Timestamp.markedChars
    Timestamp.IsStamp Timestamp.isInMinutes stamp ∧ a.isLegible Timestamp.isInMinutes = true ∧
      b.isLegible Timestamp.isInMinutes = true ∧ a.isLegible Timestamp.isRegular = true ∧
      b.isLegible Timestamp.isRegular = true ∧ a.textWith stamp = b.textWith stamp ∧
      a.textWith stamp = a.text ∧ a.text = b.text ∧ a.same b = true ∧
      a.text = "a::\x7b'$7':[$7,2017-01-01T00:59:60.500+01:00]\x7d" := by
  intro leap field a b stamp
  have hstamp : Timestamp.IsStamp Timestamp.isInMinutes stamp := Timestamp.isStamp_markedChars
  have ha : a.isLegible Timestamp.isInMinutes = true := by decide
  have hb : b.isLegible Timestamp.isInMinutes = true := by decide
  have ha' : a.isLegible Timestamp.isRegular = true := by decide
  have hb' : b.isLegible Timestamp.isRegular = true := by decide
  have hwritten : a.text = "a::\x7b'$7':[$7,2017-01-01T00:59:60.500+01:00]\x7d" := by decide
  have hwritten' : b.text = "a::\x7b'$7':[$7,2017-01-01T00:59:60.500+01:00]\x7d" := by decide
  have hstamped : a.textWith stamp = "a::\x7b'$7':[$7,2017-01-01T00:59:60.500+01:00]\x7d" := by
    decide
  have htext : a.text = b.text := hwritten.trans hwritten'.symm
  obtain ⟨hforth, hback, hback'⟩ := Element.text_determines a b
  have htexts := (hforth (hback' ha' hb' htext)).2
  exact ⟨hstamp, ha, hb, ha', hb', htexts stamp, hstamped.trans hwritten.symm, htext,
    hback stamp hstamp ha hb (htexts stamp), hwritten⟩

end IonDocument
