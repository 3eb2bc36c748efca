import IonDocument.Binary64.Shortest
import IonDocument.Proofs.Text.Numeral

/-! # The shortest text identifies the float

The digits and the exponent give back a decimal that rounds to the float. No decimal rounds to two
floats, because the rounding intervals of different magnitudes meet at most at an end that belongs
to one of them.
-/
namespace IonDocument
open Text Numeral

namespace RoundingInterval
variable {r : RoundingInterval}

theorem contains_iff {x : Nat} : r.contains x = true ↔
    r.low ≤ 2 * x ∧ 2 * x ≤ r.high ∧ (r.closed = false → r.low < 2 * x ∧ 2 * x < r.high) := by
  unfold contains
  cases hc : r.closed with
  | true => simp
  | false =>
    simp only [Bool.and_eq_true, decide_eq_true_eq, Bool.false_eq_true, if_false, forall_const]
    omega

theorem contains_of_nearest? {unit n : Nat} (h : r.nearest? unit = some n) :
    r.contains (n * unit) = true := by
  simp only [nearest?] at h
  split at h
  · rename_i habove
    rw [Bool.and_eq_true] at habove
    cases h
    exact habove.1
  · split at h
    · rename_i hbelow
      cases h
      exact hbelow
    · cases h

/-- Whatever grid is hit first, the hit is in the interval. -/
theorem contains_shortestFrom (hr : r.contains r.value = true) (k : Nat) :
    r.contains ((r.shortestFrom k).1 * Nat.pow 10 (r.shortestFrom k).2) = true := by
  induction k with
  | zero => simpa [shortestFrom] using hr
  | succ k ih =>
    simp only [shortestFrom]
    cases h : r.nearest? (Nat.pow 10 (k + 1)) with
    | none => exact ih
    | some n => exact contains_of_nearest? h

theorem contains_shortest (hr : r.contains r.value = true) :
    r.contains (r.shortest.1 * Nat.pow 10 r.shortest.2) = true := contains_shortestFrom hr _

end RoundingInterval

namespace Binary64

theorem exact_lt_succ (m : Nat) : exact m < exact (m + 1) := by
  have hunit : ∀ k, 0 < Nat.pow 5 k := fun k => Nat.pow_pos (by decide)
  exact Nat.mul_lt_mul_of_pos_right (scaled_lt_succ m) (hunit 1074)

theorem exact_zero : exact 0 = 0 := by
  have hscaled : scaled 0 = 0 := rfl
  simp only [exact, hscaled, Nat.zero_mul]

theorem exact_lt {m n : Nat} (h : m < n) : exact m < exact n := by
  induction h with
  | refl => exact exact_lt_succ m
  | step _ ih => exact Nat.lt_trans ih (exact_lt_succ _)

theorem exact_le {m n : Nat} (h : m ≤ n) : exact m ≤ exact n := by
  rcases Nat.eq_or_lt_of_le h with rfl | h
  · exact Nat.le_refl _
  · exact Nat.le_of_lt (exact_lt h)

theorem closed_interval (m : Nat) : (interval m).closed = decide (m % 2 = 0) := rfl

theorem contains_interval {m x : Nat} : (interval m).contains x = true ↔
    exact (m - 1) + exact m ≤ 2 * x ∧ 2 * x ≤ exact m + exact (m + 1) ∧
      (m % 2 = 1 → exact (m - 1) + exact m < 2 * x ∧ 2 * x < exact m + exact (m + 1)) := by
  rw [RoundingInterval.contains_iff, closed_interval, decide_eq_false_iff_not,
    Nat.mod_two_not_eq_zero]
  rfl

theorem contains_exact (m : Nat) : (interval m).contains (exact m) = true := by
  rw [contains_interval]
  have hle := exact_le (Nat.sub_le m 1)
  have hlt := exact_lt_succ m
  refine ⟨by omega, by omega, ?_⟩
  intro hodd
  have hlow : exact (m - 1) < exact m := exact_lt (by omega)
  omega

/-- Neighbouring intervals share an end, and then one of the two is open. -/
theorem not_contains_of_lt {m n x : Nat} (h : m < n) (hm : (interval m).contains x = true)
    (hn : (interval n).contains x = true) : False := by
  rw [contains_interval] at hm hn
  obtain ⟨-, hm, hodd⟩ := hm
  obtain ⟨hn, -, hodd'⟩ := hn
  have hlow : exact m ≤ exact (n - 1) := exact_le (by omega)
  by_cases hsucc : n = m + 1
  · subst hsucc
    simp only [Nat.add_sub_cancel] at hn hodd'
    omega
  · have hhigh : exact (m + 1) < exact n := exact_lt (by omega)
    omega

/-- The reals that round to different floats are different. -/
theorem eq_of_contains {m n x : Nat} (hm : (interval m).contains x = true)
    (hn : (interval n).contains x = true) : m = n := by
  rcases Nat.lt_trichotomy m n with h | h | h
  · exact (not_contains_of_lt h hm hn).elim
  · exact h
  · exact (not_contains_of_lt h hn hm).elim

/-- Digits without the zeros at their end. -/
def significant (digits : List Char) : List Char :=
  (digits.reverse.dropWhile (· = '0')).reverse

theorem exists_zeros (digits : List Char) :
    ∃ z, digits = significant digits ++ List.replicate z '0' := by
  have hsplit : digits.reverse.takeWhile (· = '0') ++ digits.reverse.dropWhile (· = '0') =
      digits.reverse := List.takeWhile_append_dropWhile
  have hzeros : digits.reverse.takeWhile (· = '0') =
      List.replicate (digits.reverse.takeWhile (· = '0')).length '0' := by
    apply List.eq_replicate_of_mem
    intro c hc
    simpa using List.all_eq_true.mp List.all_takeWhile c hc
  refine ⟨(digits.reverse.takeWhile (· = '0')).length, ?_⟩
  have h := congrArg List.reverse hsplit
  rw [List.reverse_append, List.reverse_reverse, hzeros, List.reverse_replicate] at h
  exact h.symm

/-- The number of digits and an exponent, in units of `10 ^ (-1074)`. -/
def scientificValue (digits : List Char) (exponent : Int) : Nat :=
  Nat.ofDigitChars 10 digits 0 * Nat.pow 10 (exponent + 1075 - digits.length).toNat

theorem scientificValue_significant (n k : Nat) :
    scientificValue (significant (Numeral.nat n)) ((Numeral.nat n).length + k - 1075 : Int) =
      n * Nat.pow 10 k := by
  obtain ⟨z, hz⟩ := exists_zeros (Numeral.nat n)
  have hvalue := congrArg (Nat.ofDigitChars 10 · 0) hz
  have hlen := congrArg List.length hz
  simp only [Numeral.ofDigitChars_nat, Nat.ofDigitChars_append, Nat.ofDigitChars_replicate_zero,
    List.length_append, List.length_replicate] at hvalue hlen
  have hexp : (((Numeral.nat n).length + k - 1075 : Int) + 1075 -
      (significant (Numeral.nat n)).length).toNat = z + k := by omega
  have hpow : Nat.pow 10 (z + k) = Nat.pow 10 z * Nat.pow 10 k := Nat.pow_add 10 z k
  rw [scientificValue, hexp, hpow, ← Nat.mul_assoc, Nat.mul_comm _ (Nat.pow 10 z)]
  exact congrArg (· * Nat.pow 10 k) hvalue.symm

/-- A text of digits and an exponent that stands for a decimal in the rounding interval. -/
structure Reads (m : Nat) (digits : List Char) (exponent : Int) : Prop where
  chars : magnitudeChars m = scientific digits exponent
  digits_ne_nil : digits ≠ []
  isDigit : ∀ c ∈ digits, c.isDigit = true
  contains : (interval m).contains (scientificValue digits exponent) = true

theorem reads_zero : Reads 0 ['0'] 0 := by
  have hchars : magnitudeChars 0 = ['0', 'e', '0'] := if_pos rfl
  have hdigits : Nat.ofDigitChars 10 ['0'] 0 = 0 := rfl
  refine ⟨hchars, by decide, List.all_eq_true.mp rfl, ?_⟩
  have hvalue : scientificValue ['0'] 0 = exact 0 := by
    rw [scientificValue, hdigits, Nat.zero_mul, exact_zero]
  rw [hvalue]
  exact contains_exact 0

theorem exists_reads (m : Nat) : ∃ digits exponent, Reads m digits exponent := by
  by_cases hm : m = 0
  · subst hm
    exact ⟨['0'], 0, reads_zero⟩
  · have hcontains := RoundingInterval.contains_shortest (r := interval m) (contains_exact m)
    rcases hshortest : (interval m).shortest with ⟨n, k⟩
    rw [hshortest] at hcontains
    have hvalue := scientificValue_significant n k
    refine ⟨significant (Numeral.nat n), (Numeral.nat n).length + k - 1075, ⟨?_, ?_, ?_, ?_⟩⟩
    · unfold magnitudeChars
      rw [if_neg hm, hshortest]
      rfl
    · intro hnil
      rw [hnil] at hvalue
      simp only [scientificValue, Nat.ofDigitChars_nil, Nat.zero_mul] at hvalue
      obtain ⟨hlow, -⟩ := contains_interval.mp hcontains
      have hpos : exact (m - 1) < exact m := exact_lt (by omega)
      dsimp only at hlow
      rw [← hvalue] at hlow
      omega
    · intro c hc
      apply Numeral.isDigit_of_mem_nat (n := n)
      rw [significant, List.mem_reverse] at hc
      exact List.mem_reverse.mp (List.dropWhile_subset _ hc)
    · rw [hvalue]
      exact hcontains

theorem scientific_inj {ds es : List Char} {i j : Int} (hds : ∀ c ∈ ds, c.isDigit = true)
    (hes : ∀ c ∈ es, c.isDigit = true) (hd : ds ≠ []) (he : es ≠ [])
    (h : scientific ds i = scientific es j) : ds = es ∧ i = j := by
  cases ds with
  | nil => exact absurd rfl hd
  | cons d ds =>
    cases es with
    | nil => exact absurd rfl he
    | cons e es =>
      rcases ds with _ | ⟨d', ds⟩
      · rcases es with _ | ⟨e', es⟩
        · simp only [scientific, List.cons.injEq, true_and] at h
          exact ⟨congrArg (· :: []) h.1, Numeral.int_inj h.2⟩
        · simp [scientific] at h
      · rcases es with _ | ⟨e', es⟩
        · simp [scientific] at h
        · simp only [scientific, List.cons_append, List.cons.injEq, true_and] at h
          obtain ⟨rfl, rfl, htail⟩ := h
          obtain ⟨rfl, hint⟩ := append_cons_inj (fun c hc => hds c (by simp [hc]))
            (fun c hc => hes c (by simp [hc])) (by decide) htail
          exact ⟨rfl, Numeral.int_inj hint⟩

theorem magnitudeChars_inj {m n : Nat} (h : magnitudeChars m = magnitudeChars n) : m = n := by
  obtain ⟨ds, i, hm⟩ := exists_reads m
  obtain ⟨es, j, hn⟩ := exists_reads n
  rw [hm.chars, hn.chars] at h
  obtain ⟨rfl, rfl⟩ := scientific_inj hm.isDigit hn.isDigit hm.digits_ne_nil hn.digits_ne_nil h
  exact eq_of_contains hm.contains hn.contains

/-- The characters of a float that is a number. -/
def isFloatChar (c : Char) : Bool :=
  c.isDigit || ['.', 'e', '-', '+', 'i', 'n', 'f'].contains c

theorem isFloatChar_of_mem_scientific {ds : List Char} {i : Int}
    (hds : ∀ c ∈ ds, c.isDigit = true) {c : Char} (hc : c ∈ scientific ds i) :
    isFloatChar c = true := by
  have hdigit : ∀ c, c.isDigit = true → isFloatChar c = true := by
    intro c hc
    simp [isFloatChar, hc]
  have hint : ∀ c ∈ Numeral.int i, isFloatChar c = true := by
    intro c hc
    have h := Numeral.isIntChar_of_mem_int hc
    simp only [Numeral.isIntChar, Bool.or_eq_true, decide_eq_true_eq] at h
    rcases h with rfl | h
    · rfl
    · exact hdigit c h
  rcases ds with _ | ⟨d, _ | ⟨d', ds⟩⟩
  · cases hc
  · simp only [scientific, List.mem_cons] at hc
    rcases hc with rfl | rfl | hc
    · exact hdigit c (hds c (by simp))
    · rfl
    · exact hint c hc
  · simp only [scientific, List.cons_append, List.mem_cons, List.mem_append] at hc
    rcases hc with rfl | rfl | rfl | hc | rfl | hc
    · exact hdigit c (hds c (by simp))
    · rfl
    · exact hdigit c (hds c (by simp))
    · exact hdigit c (hds c (by simp [hc]))
    · rfl
    · exact hint c hc

theorem mem_scientific {ds : List Char} (i : Int) (hd : ds ≠ []) : 'e' ∈ scientific ds i := by
  rcases ds with _ | ⟨d, _ | ⟨d', ds⟩⟩
  · exact absurd rfl hd
  · simp [scientific]
  · simp [scientific]

theorem begins_magnitudeChars (m : Nat) : Begins Char.isDigit (magnitudeChars m) := by
  obtain ⟨digits, i, hreads⟩ := exists_reads m
  rw [hreads.chars]
  rcases digits with _ | ⟨d, _ | ⟨d', ds⟩⟩
  · exact absurd rfl hreads.digits_ne_nil
  · exact begins_cons (hreads.isDigit d (by simp))
  · exact begins_cons (hreads.isDigit d (by simp))

def signChars (x : Binary64) : List Char :=
  if x.isNegative then ['-'] else if x.isInfinite then ['+'] else []

def unsignedChars (x : Binary64) : List Char :=
  if x.isInfinite then ['i', 'n', 'f'] else magnitudeChars x.magnitude

theorem chars_eq {x : Binary64} (h : x.isNaN = false) : x.chars = x.signChars ++ x.unsignedChars := by
  simp only [chars, signChars, unsignedChars, h]
  cases x.isInfinite <;> cases x.isNegative <;> simp

theorem isSign_of_mem {x : Binary64} {c : Char} (hc : c ∈ x.signChars) : isSign c = true := by
  unfold signChars at hc
  split at hc
  · rw [List.mem_singleton.mp hc]
    rfl
  · split at hc
    · rw [List.mem_singleton.mp hc]
      rfl
    · cases hc

theorem unsignedChars_of_isInfinite {x : Binary64} (h : x.isInfinite = true) :
    x.unsignedChars = ['i', 'n', 'f'] := if_pos h

theorem unsignedChars_of_not_isInfinite {x : Binary64} (h : x.isInfinite = false) :
    x.unsignedChars = magnitudeChars x.magnitude := if_neg (by simp [h])

theorem leaves_unsignedChars (x : Binary64) : Leaves isSign x.unsignedChars := by
  cases h : x.isInfinite with
  | true =>
    rw [unsignedChars_of_isInfinite h]
    exact leaves_cons (by decide)
  | false =>
    rw [unsignedChars_of_not_isInfinite h]
    exact (begins_magnitudeChars _).leaves fun _ => isSign_of_isDigit

theorem magnitudeChars_ne_inf (m : Nat) : magnitudeChars m ≠ ['i', 'n', 'f'] := by
  intro hm
  obtain ⟨c, cs, hchars, hdigit⟩ := begins_magnitudeChars m
  rw [hm] at hchars
  cases hchars
  cases hdigit

theorem unsignedChars_inj {x y : Binary64} (h : x.unsignedChars = y.unsignedChars) :
    x.isInfinite = y.isInfinite ∧ x.magnitude = y.magnitude := by
  cases hx : x.isInfinite with
  | true =>
    rw [unsignedChars_of_isInfinite hx] at h
    cases hy : y.isInfinite with
    | true =>
      rw [isInfinite, decide_eq_true_eq] at hx hy
      exact ⟨rfl, hx.trans hy.symm⟩
    | false =>
      rw [unsignedChars_of_not_isInfinite hy] at h
      exact absurd h.symm (magnitudeChars_ne_inf _)
  | false =>
    rw [unsignedChars_of_not_isInfinite hx] at h
    cases hy : y.isInfinite with
    | true =>
      rw [unsignedChars_of_isInfinite hy] at h
      exact absurd h (magnitudeChars_ne_inf _)
    | false =>
      rw [unsignedChars_of_not_isInfinite hy] at h
      exact ⟨rfl, magnitudeChars_inj h⟩

theorem signChars_inj {x y : Binary64} (hinf : x.isInfinite = y.isInfinite)
    (h : x.signChars = y.signChars) : x.isNegative = y.isNegative := by
  unfold signChars at h
  rw [hinf] at h
  cases hx : x.isNegative <;> cases hy : y.isNegative <;> cases hi : y.isInfinite <;> simp_all

/-- A float that is a number is known from its text. -/
theorem chars_inj {x y : Binary64} (hx : x.isNaN = false) (hy : y.isNaN = false)
    (h : x.chars = y.chars) : x = y := by
  rw [chars_eq hx, chars_eq hy] at h
  obtain ⟨hsign, hunsigned⟩ := append_inj (fun _ => isSign_of_mem) (fun _ => isSign_of_mem)
    (leaves_unsignedChars x) (leaves_unsignedChars y) h
  obtain ⟨hinf, hmagnitude⟩ := unsignedChars_inj hunsigned
  exact eq_of_sign_magnitude (signChars_inj hinf hsign) hmagnitude

theorem isFloatChar_of_mem {x : Binary64} (hx : x.isNaN = false) {c : Char} (hc : c ∈ x.chars) :
    isFloatChar c = true := by
  rw [chars_eq hx] at hc
  rcases List.mem_append.mp hc with hc | hc
  · have hsign := isSign_of_mem hc
    simp only [isSign, Bool.or_eq_true, decide_eq_true_eq] at hsign
    rcases hsign with rfl | rfl <;> rfl
  · cases h : x.isInfinite with
    | true =>
      rw [unsignedChars_of_isInfinite h] at hc
      have hinf : ['i', 'n', 'f'].all isFloatChar = true := by decide
      exact List.all_eq_true.mp hinf c hc
    | false =>
      obtain ⟨digits, i, hreads⟩ := exists_reads x.magnitude
      rw [unsignedChars_of_not_isInfinite h, hreads.chars] at hc
      exact isFloatChar_of_mem_scientific hreads.isDigit hc

/-- A float is marked by its exponent, unless it is infinite. -/
theorem mark_mem_chars {x : Binary64} (hx : x.isNaN = false) : 'e' ∈ x.chars ∨ 'i' ∈ x.chars := by
  rw [chars_eq hx]
  cases h : x.isInfinite with
  | true =>
    rw [unsignedChars_of_isInfinite h]
    exact .inr (List.mem_append_right _ List.mem_cons_self)
  | false =>
    obtain ⟨digits, i, hreads⟩ := exists_reads x.magnitude
    rw [unsignedChars_of_not_isInfinite h, hreads.chars]
    exact .inl (List.mem_append_right _ (mem_scientific i hreads.digits_ne_nil))

theorem begins_chars {x : Binary64} (hx : x.isNaN = false) : Begins isNumberStart x.chars := by
  cases hi : x.isInfinite with
  | true =>
    have hchars : x.chars = (if x.isNegative then '-' else '+') :: ['i', 'n', 'f'] := by
      simp [chars, hx, hi]
    rw [hchars]
    exact begins_cons (by cases x.isNegative <;> decide)
  | false =>
    rw [chars_eq hx, unsignedChars_of_not_isInfinite hi]
    have hmagnitude := (begins_magnitudeChars x.magnitude).mono fun _ => isNumberStart_of_isDigit
    unfold signChars
    cases x.isNegative with
    | true => exact begins_cons (by decide)
    | false =>
      rw [hi]
      exact hmagnitude

end Binary64
end IonDocument
