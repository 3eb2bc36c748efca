import IonDocument.Text.Escape
import IonDocument.Proofs.Text.Prefix

/-! # Reading escapes

One reader takes the first character off an escaped text, whatever quotes the text stands in, and
so two quoted texts that begin alike are the same.
-/
namespace IonDocument.Escape
open Text

def hexValue (c : Char) : Nat :=
  if c.isDigit then c.toNat - '0'.toNat else c.toNat - 'A'.toNat + 10

/-- The character of an escape, behind its backslash. -/
def afterBackslash : List Char → Option (Char × List Char)
  | [] => none
  | 'n' :: r => some ('\n', r)
  | 'r' :: r => some ('\r', r)
  | 't' :: r => some ('\t', r)
  | 'x' :: a :: b :: r => some (Char.ofNat (hexValue a * 16 + hexValue b), r)
  | 'u' :: _ :: _ :: a :: b :: r => some (Char.ofNat (hexValue a * 16 + hexValue b), r)
  | c :: r => some (c, r)

/-- The first character that was escaped, and what is left. -/
def unescape : List Char → Option (Char × List Char)
  | [] => none
  | c :: r => if c = '\\' then afterBackslash r else some (c, r)

theorem unescape_of_ne {c : Char} (h : c ≠ '\\') (r : List Char) :
    unescape (c :: r) = some (c, r) := if_neg h

theorem hexValue_hexDigit {n : Nat} (h : n < 16) : hexValue (Numeral.hexDigit n) = n := by
  have hall : ∀ n < 16, hexValue (Numeral.hexDigit n) = n := by decide
  exact hall n h

theorem hexValue_hexByte {n : Nat} (h : n < 256) :
    hexValue (Numeral.hexDigit (n / 16)) * 16 + hexValue (Numeral.hexDigit (n % 16)) = n := by
  rw [hexValue_hexDigit (by omega), hexValue_hexDigit (by omega)]
  omega

theorem unescape_hexByte {n : Nat} (h : n < 256) (r : List Char) :
    unescape ('\\' :: 'x' :: Numeral.hexByte n ++ r) = some (Char.ofNat n, r) := by
  have hn := hexValue_hexByte h
  simp [unescape, afterBackslash, Numeral.hexByte, hn]

theorem unescape_character (q : Quote) (c : Char) (r : List Char) :
    unescape (character q c ++ r) = some (c, r) := by
  unfold character
  by_cases h₁ : c = '\\'
  · subst h₁
    rfl
  by_cases h₂ : c = '\n'
  · subst h₂
    rfl
  by_cases h₃ : c = '\r'
  · subst h₃
    rfl
  by_cases h₄ : c = '\t'
  · subst h₄
    rfl
  by_cases h₅ : c = q.char
  · subst h₅
    cases q <;> rfl
  by_cases h₆ : c.toNat < 0x20 ∨ c.toNat = 0x7F
  · have hread := unescape_hexByte (n := c.toNat) (by omega) r
    simp only [h₁, h₂, h₃, h₄, h₅, h₆, if_true, if_false]
    rw [hread, Char.ofNat_toNat]
  by_cases h₇ : 0x80 ≤ c.toNat ∧ c.toNat < 0xA0
  · have hn := hexValue_hexByte (n := c.toNat) (by omega)
    simp [h₁, h₂, h₃, h₄, h₅, h₆, h₇, unescape, afterBackslash, Numeral.hexByte, hn]
  · simp only [h₁, h₂, h₃, h₄, h₅, h₆, h₇, if_false]
    exact unescape_of_ne h₁ r

theorem toNat_ofNat_of_lt {n : Nat} (h : n < 256) : (Char.ofNat n).toNat = n := by
  have hvalid : n.isValidChar := Or.inl (by omega)
  have hofNat : Char.ofNat n = Char.ofNatAux n hvalid := dif_pos hvalid
  rw [hofNat]
  rfl

theorem unescape_byte (b : UInt8) (r : List Char) :
    unescape (byte b ++ r) = some (Char.ofNat b.toNat, r) := by
  have hb := b.toNat_lt
  unfold byte
  by_cases h₁ : b.toNat = 0x22
  · simp [h₁, unescape, afterBackslash]
  by_cases h₂ : b.toNat = 0x5C
  · simp [h₂, unescape, afterBackslash]
  by_cases h₃ : 0x20 ≤ b.toNat ∧ b.toNat ≤ 0x7E
  · have hc : Char.ofNat b.toNat ≠ '\\' := by
      intro hc
      have hnat := congrArg Char.toNat hc
      rw [toNat_ofNat_of_lt hb] at hnat
      exact h₂ hnat
    simp only [h₁, h₂, h₃, if_true, if_false, and_self]
    exact unescape_of_ne hc r
  · simp only [h₁, h₂, h₃, if_false]
    exact unescape_hexByte hb r

/-- What begins an escaped character is the character itself or a backslash, and never a quote. -/
theorem character_ne_quote (q : Quote) (c : Char) (r s : List Char) :
    character q c ++ r ≠ q.char :: s := by
  intro h
  have hread := unescape_character q c r
  have hq : q.char ≠ '\\' := by cases q <;> decide
  rw [h, unescape_of_ne hq] at hread
  obtain ⟨rfl, rfl⟩ := Prod.mk.inj (Option.some.inj hread)
  cases q <;> cases h

theorem byte_ne_quote (b : UInt8) (r s : List Char) : byte b ++ r ≠ '"' :: s := by
  intro h
  have hread := unescape_byte b r
  rw [h, unescape_of_ne (by decide)] at hread
  have hb := congrArg Char.toNat (Prod.mk.inj (Option.some.inj hread)).1
  rw [toNat_ofNat_of_lt b.toNat_lt] at hb
  have hbyte : byte b = ['\\', '"'] := if_pos hb.symm
  rw [hbyte] at h
  cases h

/-- A quoted text is over where its quotes are closed. -/
theorem quoted_append_inj {q : Quote} {xs ys r s : List Char}
    (h : quoted q xs ++ r = quoted q ys ++ s) : xs = ys ∧ r = s := by
  have hf : ∀ c d r s, character q c ++ r = character q d ++ s → c = d ∧ r = s := by
    intro c d r s h
    have hread := unescape_character q c r
    rw [h, unescape_character] at hread
    exact Prod.mk.inj (Option.some.inj hread.symm)
  simp only [quoted, List.cons_append, List.append_assoc, List.nil_append, List.cons.injEq,
    true_and] at h
  exact flatMap_append_inj hf (character_ne_quote q) h

theorem bytes_append_inj {as bs : List UInt8} {r s : List Char}
    (h : bytes as ++ '"' :: r = bytes bs ++ '"' :: s) : as = bs ∧ r = s := by
  have hf : ∀ a b r s, byte a ++ r = byte b ++ s → a = b ∧ r = s := by
    intro a b r s h
    have hread := unescape_byte a r
    rw [h, unescape_byte] at hread
    obtain ⟨hc, hrs⟩ := Prod.mk.inj (Option.some.inj hread.symm)
    have hn := congrArg Char.toNat hc
    rw [toNat_ofNat_of_lt a.toNat_lt, toNat_ofNat_of_lt b.toNat_lt] at hn
    exact ⟨UInt8.toNat_inj.mp hn, hrs⟩
  exact flatMap_append_inj hf byte_ne_quote h

end IonDocument.Escape
