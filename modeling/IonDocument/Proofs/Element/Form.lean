import IonDocument.Element.Text
import IonDocument.Proofs.Binary64.Shortest
import IonDocument.Proofs.Text.Base64
import IonDocument.Proofs.Text.Symbol
import IonDocument.Proofs.Timestamp

/-! # Which constructor a text is of

Before any of it is read, the beginning of a text tells what kind of value it is the text of, be it
the first characters, the first word or the marks in a number. So two values with texts that begin
alike are of one form, and only values of one form need to be compared.
-/
namespace IonDocument
open Text

/-- A value is over before any of these. -/
def closing : List Char := [',', ' ', ']', ')', '}']

def isOpen (c : Char) : Bool := !closing.contains c

/-- The scalar is told by its text from every other one that is not the same, where timestamps are
if they are `told`. -/
def Scalar.isLegible (told : Timestamp → Bool) : Scalar → Bool
  | ⟨.float, x⟩ => !x.isNaN
  | ⟨.timestamp, t⟩ => told t
  | ⟨.symbol, token⟩ => token.isLegible
  | _ => true

def wordForm (word : List Char) : Kind :=
  if word = ['n', 'u', 'l', 'l'] then .null
  else if word = ['t', 'r', 'u', 'e'] ∨ word = ['f', 'a', 'l', 's', 'e'] then .scalar .bool
  else .scalar .symbol

def numberForm (number : List Char) : Kind :=
  if 'T' ∈ number then .scalar .timestamp
  else if 'd' ∈ number then .scalar .decimal
  else if 'e' ∈ number ∨ 'i' ∈ number then .scalar .float
  else .scalar .int

/-- The form of a value that begins with a brace, from what comes behind the brace. -/
def braceForm : List Char → Kind
  | '{' :: '"' :: _ => .scalar .clob
  | '{' :: _ => .scalar .blob
  | _ => .container .struct

/-- The form of the value that a text begins with; all nulls are of one form. -/
def formOf : List Char → Kind
  | [] => .null
  | c :: cs =>
    if Numeral.isNumberStart c then numberForm ((c :: cs).takeWhile isOpen)
    else if Token.isWordStart c then wordForm ((c :: cs).takeWhile Token.isWordChar)
    else if c = '"' then .scalar .string
    else if c = '\'' then .scalar .symbol
    else if c = '[' then .container .list
    else if c = '(' then .container .sexp
    else braceForm cs

def Value.form : Value → Kind
  | .null _ => .null
  | v => v.kind

theorem isOpen_eq_false_iff {c : Char} : isOpen c = false ↔ c ∈ closing := by
  rw [isOpen, Bool.not_eq_false', List.contains_iff_mem]

theorem isOpen_of {p : Char → Bool} (hp : closing.any p = false) {c : Char} (hc : p c = true) :
    isOpen c = true := not_contains_of hp hc

theorem leaves_of_isOpen {p : Char → Bool} (hp : closing.any p = false) {r : List Char}
    (hr : Leaves isOpen r) : Leaves p r := by
  apply hr.mono
  intro c hc
  rw [List.any_eq_false] at hp
  exact Bool.eq_false_iff.mpr (hp c (isOpen_eq_false_iff.mp hc))

theorem isWordStart_of_isDigit {c : Char} (h : c.isDigit = true) : Token.isWordStart c = false := by
  have hall : ∀ n < 58, 48 ≤ n → Token.isWordStart (Char.ofNat n) = false := by decide
  obtain ⟨hlow, hhigh⟩ := Char.isDigit_iff_toNat.mp h
  have hc := hall c.toNat (Nat.lt_succ_of_le hhigh) hlow
  rw [Char.ofNat_toNat] at hc
  exact hc

theorem isNumberStart_of_isWordStart {c : Char} (h : Token.isWordStart c = true) :
    Numeral.isNumberStart c = false := by
  rw [← Bool.not_eq_true]
  intro hc
  simp only [Numeral.isNumberStart, Numeral.isSign, Bool.or_eq_true, decide_eq_true_eq] at hc
  rcases hc with (rfl | rfl) | hc
  · cases h
  · cases h
  · rw [isWordStart_of_isDigit hc] at h
    cases h

theorem formOf_number {cs r : List Char} (hb : Begins Numeral.isNumberStart cs)
    (hcs : ∀ c ∈ cs, isOpen c = true) (hr : Leaves isOpen r) : formOf (cs ++ r) = numberForm cs := by
  have htake := takeWhile_append hcs hr
  obtain ⟨c, cs, rfl, hc⟩ := hb
  rw [List.cons_append] at htake ⊢
  rw [formOf, if_pos hc, htake]

theorem formOf_word {cs r : List Char} (hb : Begins Token.isWordStart cs)
    (hcs : ∀ c ∈ cs, Token.isWordChar c = true) (hr : Leaves Token.isWordChar r) :
    formOf (cs ++ r) = wordForm cs := by
  have htake := takeWhile_append hcs hr
  obtain ⟨c, cs, rfl, hc⟩ := hb
  have hnumber := isNumberStart_of_isWordStart hc
  rw [List.cons_append] at htake ⊢
  rw [formOf, if_neg (by simp [hnumber]), if_pos hc, htake]

/-- The text of a number of some kind, whatever comes after it. -/
structure IsNumber (k : ScalarKind) (cs : List Char) : Prop where
  begins : Begins Numeral.isNumberStart cs
  isOpen : ∀ c ∈ cs, isOpen c = true
  form : numberForm cs = .scalar k

theorem isNumber_int (n : Int) : IsNumber .int (Numeral.int n) := by
  have hint : ∀ c ∈ Numeral.int n, Numeral.isIntChar c = true :=
    fun _ => Numeral.isIntChar_of_mem_int
  refine ⟨(Numeral.begins_int n).mono fun _ => Numeral.isNumberStart_of_isIntChar, ?_, ?_⟩
  · intro c hc
    exact isOpen_of (by decide) (hint c hc)
  · have hT : 'T' ∉ Numeral.int n := not_mem_of_forall hint (by decide)
    have hd : 'd' ∉ Numeral.int n := not_mem_of_forall hint (by decide)
    have he : 'e' ∉ Numeral.int n := not_mem_of_forall hint (by decide)
    have hi : 'i' ∉ Numeral.int n := not_mem_of_forall hint (by decide)
    simp [numberForm, hT, hd, he, hi]

theorem isNumber_decimal (d : Decimal) : IsNumber .decimal d.chars := by
  have hint : ∀ i, ∀ c ∈ Numeral.int i, Numeral.isIntChar c = true :=
    fun _ _ => Numeral.isIntChar_of_mem_int
  refine ⟨?_, ?_, ?_⟩
  · exact ((Numeral.begins_int d.coefficient).append _).mono
      fun _ => Numeral.isNumberStart_of_isIntChar
  · intro c hc
    rcases List.mem_append.mp hc with hc | hc
    · exact isOpen_of (by decide) (hint _ c hc)
    · rcases List.mem_cons.mp hc with rfl | hc
      · rfl
      · exact isOpen_of (by decide) (hint _ c hc)
  · have hT : ∀ i, 'T' ∉ Numeral.int i := fun i => not_mem_of_forall (hint i) (by decide)
    simp [numberForm, Decimal.chars, hT]

theorem isNumber_float {x : Binary64} (hx : x.isNaN = false) : IsNumber .float x.chars := by
  have hfloat : ∀ c ∈ x.chars, Binary64.isFloatChar c = true :=
    fun _ => Binary64.isFloatChar_of_mem hx
  refine ⟨Binary64.begins_chars hx, ?_, ?_⟩
  · intro c hc
    exact isOpen_of (by decide) (hfloat c hc)
  · have hT : 'T' ∉ x.chars := not_mem_of_forall hfloat (by decide)
    have hd : 'd' ∉ x.chars := not_mem_of_forall hfloat (by decide)
    rw [numberForm, if_neg hT, if_neg hd, if_pos (Binary64.mark_mem_chars hx)]

theorem Timestamp.IsStamp.isNumber {told : Timestamp → Bool} {stamp : Timestamp → List Char}
    (h : IsStamp told stamp) (t : Timestamp) : IsNumber .timestamp (stamp t) := by
  refine ⟨h.begins t, ?_, if_pos (h.mark t)⟩
  intro c hc
  exact isOpen_of (by decide) (h.chars t c hc)

theorem IsNumber.formOf_append {k : ScalarKind} {cs r : List Char} (h : IsNumber k cs)
    (hr : Leaves IonDocument.isOpen r) : formOf (cs ++ r) = .scalar k :=
  (formOf_number h.begins h.isOpen hr).trans h.form

theorem formOf_null (k : Kind) {r : List Char} (hr : Leaves isOpen r) :
    formOf (k.nullChars ++ r) = .null := by
  have hword : ∀ r, Leaves Token.isWordChar r → formOf (['n', 'u', 'l', 'l'] ++ r) = .null :=
    fun r hr => formOf_word (begins_cons (by decide)) (List.all_eq_true.mp rfl) hr
  cases k with
  | null => exact hword _ (leaves_of_isOpen (by decide) hr)
  | scalar k => exact hword ('.' :: _) (leaves_cons (by decide))
  | container k => exact hword ('.' :: _) (leaves_cons (by decide))

theorem formOf_token {token : Token} (h : token.isLegible = true) {r : List Char}
    (hr : Leaves Token.isWordChar r) : formOf (token.chars ++ r) = .scalar .symbol := by
  rcases (Token.spelling h).isWord_or with hw | ⟨text, -, hq⟩
  · have hword := formOf_word (Token.begins_of_isWord hw)
      (fun _ => Token.isWordChar_of_mem hw) hr
    have hreserved := Token.not_reserved_of_isWord hw
    simp only [Token.reserved, List.mem_cons, not_or] at hreserved
    obtain ⟨hnull, htrue, hfalse, -⟩ := hreserved
    rw [hword, wordForm, if_neg hnull, if_neg (not_or.mpr ⟨htrue, hfalse⟩)]
  · rw [hq]
    rfl

theorem formOf_bool (stamp : Timestamp → List Char) (b : Bool) {r : List Char}
    (hr : Leaves isOpen r) : formOf (Scalar.charsWith stamp ⟨.bool, b⟩ ++ r) = .scalar .bool := by
  have hleaves : Leaves Token.isWordChar r := leaves_of_isOpen (by decide) hr
  have htrue : formOf (['t', 'r', 'u', 'e'] ++ r) = .scalar .bool :=
    formOf_word (begins_cons (by decide)) (List.all_eq_true.mp rfl) hleaves
  have hfalse : formOf (['f', 'a', 'l', 's', 'e'] ++ r) = .scalar .bool :=
    formOf_word (begins_cons (by decide)) (List.all_eq_true.mp rfl) hleaves
  cases b with
  | true => exact htrue
  | false => exact hfalse

theorem braceForm_blob {p : Char → Bool} {cs : List Char} (h : Begins p cs) (hp : p '"' = false) :
    braceForm ('{' :: cs) = .scalar .blob := by
  obtain ⟨c, cs, rfl, hc⟩ := h
  have hquote : c ≠ '"' := by
    rintro rfl
    rw [hp] at hc
    cases hc
  unfold braceForm
  split <;> simp_all

theorem begins_blob (bytes : List UInt8) :
    Begins (fun c => Base64.isCode c || c = '}') (Base64.encode bytes ++ ['}', '}']) := by
  apply begins_of_forall_mem
  · intro c hc
    rw [Bool.or_eq_true]
    rcases List.mem_append.mp hc with hc | hc
    · exact .inl (Base64.isCode_of_mem_encode hc)
    · simp only [List.mem_cons, List.not_mem_nil, or_false, or_self] at hc
      exact .inr (decide_eq_true hc)
  · exact List.append_ne_nil_of_right_ne_nil _ (List.cons_ne_nil _ _)

theorem braceForm_struct {p : Char → Bool} {cs : List Char} (h : Begins p cs) (hp : p '{' = false) :
    braceForm cs = .container .struct := by
  obtain ⟨c, cs, rfl, hc⟩ := h
  have hbrace : c ≠ '{' := by
    rintro rfl
    rw [hp] at hc
    cases hc
  unfold braceForm
  split <;> simp_all

theorem Scalar.formOf_append {told : Timestamp → Bool} {stamp : Timestamp → List Char}
    (hstamp : Timestamp.IsStamp told stamp) {a : Scalar} (h : a.isLegible told = true)
    {r : List Char} (hr : Leaves isOpen r) : formOf (a.charsWith stamp ++ r) = .scalar a.kind := by
  rcases a with ⟨k, p⟩
  cases k with
  | bool => exact formOf_bool stamp p hr
  | int => exact (isNumber_int p).formOf_append hr
  | float =>
    have hx : Binary64.isNaN p = false := by simpa [isLegible] using h
    exact (isNumber_float hx).formOf_append hr
  | decimal => exact (isNumber_decimal p).formOf_append hr
  | timestamp => exact (hstamp.isNumber p).formOf_append hr
  | string => rfl
  | symbol => exact formOf_token h (leaves_of_isOpen (by decide) hr)
  | blob => exact braceForm_blob ((begins_blob p).append r) (by decide)
  | clob => rfl

end IonDocument
