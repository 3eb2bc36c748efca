import IonDocument.Text.Base64
import IonDocument.Proofs.Text.Prefix

/-! # Reading base64

Four characters are read at a time, and the fill at the end tells how many bytes the last of them
stand for.
-/
namespace IonDocument.Base64
open Text

/-- The number of a character of the alphabet. -/
def value (c : Char) : Nat :=
  if c.isUpper then c.toNat - 'A'.toNat
  else if c.isLower then c.toNat - 'a'.toNat + 26
  else if c.isDigit then c.toNat - '0'.toNat + 52
  else if c = '+' then 62
  else 63

/-- The number of four characters. -/
def group (a b c d : Char) : Nat := ((value a * 64 + value b) * 64 + value c) * 64 + value d

def decode : List Char → List UInt8
  | a :: b :: c :: d :: rest =>
    if d ≠ '=' then
      let n := group a b c d
      .ofNat (n / 65536) :: .ofNat (n / 256 % 256) :: .ofNat (n % 256) :: decode rest
    else if c ≠ '=' then
      let n := (value a * 64 + value b) * 64 + value c
      [.ofNat (n / 1024), .ofNat (n / 4 % 256)]
    else [.ofNat ((value a * 64 + value b) / 16)]
  | _ => []

/-- A character of the alphabet or the fill. -/
def isCode (c : Char) : Bool := c.isAlphanum || c = '+' || c = '/' || c = '='

theorem digit_spec {n : Nat} (h : n < 64) :
    value (digit n) = n ∧ digit n ≠ '=' ∧ isCode (digit n) = true := by
  have hall : ∀ n < 64, value (digit n) = n ∧ digit n ≠ '=' ∧ isCode (digit n) = true := by decide
  exact hall n h

theorem value_digit {n : Nat} (h : n < 64) : value (digit n) = n := (digit_spec h).1

theorem digit_ne_fill {n : Nat} (h : n < 64) : digit n ≠ '=' := (digit_spec h).2.1

theorem isCode_digit {n : Nat} (h : n < 64) : isCode (digit n) = true := (digit_spec h).2.2

theorem ofNat_eq {b : UInt8} {n : Nat} (h : n = b.toNat) : UInt8.ofNat n = b := by
  rw [h]
  exact UInt8.ofNat_toNat

theorem decode_encode (bytes : List UInt8) : decode (encode bytes) = bytes := by
  fun_induction encode bytes with
  | case1 => rfl
  | case2 a n =>
    have ha := a.toNat_lt
    have hn : value (digit (n / 64)) * 64 + value (digit (n % 64)) = n := by
      rw [value_digit (by omega), value_digit (by omega)]
      omega
    simp only [decode, ne_eq, not_true_eq_false, if_false, hn]
    rw [ofNat_eq (b := a) (by omega)]
  | case3 a b n =>
    have ha := a.toNat_lt
    have hb := b.toNat_lt
    have hn : (value (digit (n / 4096)) * 64 + value (digit (n / 64 % 64))) * 64 +
        value (digit (n % 64)) = n := by
      rw [value_digit (by omega), value_digit (by omega), value_digit (by omega)]
      omega
    have hfill : digit (n % 64) ≠ '=' := digit_ne_fill (by omega)
    simp only [decode, ne_eq, not_true_eq_false, if_false, hfill, not_false_eq_true, if_true, hn]
    rw [ofNat_eq (b := a) (by omega), ofNat_eq (b := b) (by omega)]
  | case4 a b c rest n ih =>
    have ha := a.toNat_lt
    have hb := b.toNat_lt
    have hc := c.toNat_lt
    have hn : group (digit (n / 262144)) (digit (n / 4096 % 64)) (digit (n / 64 % 64))
        (digit (n % 64)) = n := by
      unfold group
      rw [value_digit (by omega), value_digit (by omega), value_digit (by omega),
        value_digit (by omega)]
      omega
    have hfill : digit (n % 64) ≠ '=' := digit_ne_fill (by omega)
    simp only [decode, ne_eq, hfill, not_false_eq_true, if_true, hn, ih]
    rw [ofNat_eq (b := a) (by omega), ofNat_eq (b := b) (by omega), ofNat_eq (b := c) (by omega)]

theorem encode_inj {as bs : List UInt8} (h : encode as = encode bs) : as = bs := by
  rw [← decode_encode as, h, decode_encode]

theorem isCode_of_mem_encode {bytes : List UInt8} {c : Char} (h : c ∈ encode bytes) :
    isCode c = true := by
  fun_induction encode bytes with
  | case1 => cases h
  | case2 a n =>
    have ha := a.toNat_lt
    simp only [List.mem_cons, List.not_mem_nil, or_false] at h
    rcases h with rfl | rfl | rfl | rfl
    · exact isCode_digit (by omega)
    · exact isCode_digit (by omega)
    · rfl
    · rfl
  | case3 a b n =>
    have ha := a.toNat_lt
    have hb := b.toNat_lt
    simp only [List.mem_cons, List.not_mem_nil, or_false] at h
    rcases h with rfl | rfl | rfl | rfl
    · exact isCode_digit (by omega)
    · exact isCode_digit (by omega)
    · exact isCode_digit (by omega)
    · rfl
  | case4 a b c' rest n ih =>
    have ha := a.toNat_lt
    have hb := b.toNat_lt
    have hc := c'.toNat_lt
    simp only [List.mem_cons] at h
    rcases h with rfl | rfl | rfl | rfl | h
    · exact isCode_digit (by omega)
    · exact isCode_digit (by omega)
    · exact isCode_digit (by omega)
    · exact isCode_digit (by omega)
    · exact ih h

theorem encode_append_inj {as bs : List UInt8} {c : Char} {r s : List Char} (hc : isCode c = false)
    (h : encode as ++ c :: r = encode bs ++ c :: s) : as = bs ∧ r = s := by
  obtain ⟨henc, hrs⟩ := append_cons_inj (fun _ => isCode_of_mem_encode)
    (fun _ => isCode_of_mem_encode) hc h
  exact ⟨encode_inj henc, hrs⟩

end IonDocument.Base64
