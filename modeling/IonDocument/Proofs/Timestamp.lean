import IonDocument.Timestamp
import IonDocument.Proofs.Text.Numeral

/-! # The text of a timestamp identifies it

The fields of the text are over where a character comes that is no digit. The date gives the day
back, a second beyond the 59th the leap second, the number of digits of a fraction its unit, and
an offset in whole minutes is written in full. A leap second in the midst of a minute is written
like the second after it, so that a text is of one timestamp only where there are none of these.
-/
namespace IonDocument.Timestamp
open Text Numeral

def yearSign (year : Int) : List Char :=
  if 0 ≤ year ∧ year ≤ 9999 then [] else if year < 0 then ['-'] else ['+']

theorem yearChars_eq (year : Int) : yearChars year = yearSign year ++ padded 4 year.natAbs := by
  unfold yearChars yearSign
  by_cases h : 0 ≤ year ∧ year ≤ 9999
  · have hnat : year.toNat = year.natAbs := by omega
    rw [if_pos h, if_pos h, hnat]
    rfl
  · rw [if_neg h, if_neg h]
    by_cases hneg : year < 0
    · rw [if_pos hneg, if_pos hneg]
      rfl
    · rw [if_neg hneg, if_neg hneg]
      rfl

theorem isSign_of_mem_yearSign {year : Int} {c : Char} (h : c ∈ yearSign year) :
    isSign c = true := by
  unfold yearSign at h
  split at h
  · cases h
  · split at h
    · rw [List.mem_singleton.mp h]
      rfl
    · rw [List.mem_singleton.mp h]
      rfl

theorem minus_mem_yearSign (year : Int) : '-' ∈ yearSign year ↔ year < 0 := by
  unfold yearSign
  by_cases h : 0 ≤ year ∧ year ≤ 9999
  · rw [if_pos h]
    simp
    omega
  · rw [if_neg h]
    by_cases hneg : year < 0
    · simp [hneg]
    · simp [hneg]

/-- A sign is over where the digits begin. -/
theorem leaves_padded_append (n : Nat) (r : List Char) : Leaves isSign (padded 4 n ++ r) :=
  ((begins_padded 4 n).append r).leaves fun _ => isSign_of_isDigit

theorem yearChars_append_inj {y z : Int} {r s : List Char}
    (h : yearChars y ++ '-' :: r = yearChars z ++ '-' :: s) : y = z ∧ r = s := by
  rw [yearChars_eq, yearChars_eq, List.append_assoc, List.append_assoc] at h
  obtain ⟨hsign, hrest⟩ := append_inj (fun _ => isSign_of_mem_yearSign)
    (fun _ => isSign_of_mem_yearSign) (leaves_padded_append _ _) (leaves_padded_append _ _) h
  obtain ⟨habs, hrs⟩ := padded_append_cons_inj (by decide) hrest
  have hneg := minus_mem_yearSign y
  rw [hsign, minus_mem_yearSign] at hneg
  exact ⟨by omega, hrs⟩

theorem dateChars_append_inj {d e : Date} {r s : List Char}
    (h : dateChars d ++ 'T' :: r = dateChars e ++ 'T' :: s) : d = e ∧ r = s := by
  rcases d with ⟨year, month, day⟩
  rcases e with ⟨year', month', day'⟩
  simp only [dateChars, List.append_assoc, List.cons_append] at h
  obtain ⟨rfl, hmonth⟩ := yearChars_append_inj h
  obtain ⟨rfl, hday⟩ := padded_append_cons_inj (by decide) hmonth
  obtain ⟨rfl, hrs⟩ := padded_append_cons_inj (by decide) hday
  exact ⟨rfl, hrs⟩

theorem timeChars_append_inj {m n : Nat} {a b : Bool} {r s : List Char}
    (ha : a = true → m % 60 = 59) (hb : b = true → n % 60 = 59) (hr : Leaves Char.isDigit r)
    (hs : Leaves Char.isDigit s) (h : timeChars m a ++ r = timeChars n b ++ s) :
    m = n ∧ a = b ∧ r = s := by
  simp only [timeChars, List.append_assoc, List.cons_append] at h
  obtain ⟨hhour, hrest⟩ := padded_append_cons_inj (by decide) h
  obtain ⟨hminute, hrest⟩ := padded_append_cons_inj (by decide) hrest
  obtain ⟨hsecond, hrs⟩ := padded_append_inj hr hs hrest
  -- Only a leap second is counted as the 60th.
  have hleap : a = b := by
    cases a <;> cases b <;> simp at ha hb hsecond ⊢ <;> omega
  subst hleap
  exact ⟨by omega, rfl, hrs⟩

/-- The nanoseconds in the last place of a fraction, by the number of its digits. -/
def fractionUnit : Nat → Nat
  | 3 => 1000000
  | 6 => 1000
  | _ => 1

/-- A fraction is empty, or a field of digits that holds it in a unit it is a multiple of. -/
theorem fractionChars_cases {n : Nat} (h : n < 1000000000) :
    (n = 0 ∧ fractionChars n = []) ∨ ∃ w, (nat (n / fractionUnit w)).length ≤ w ∧
      n = n / fractionUnit w * fractionUnit w ∧
      fractionChars n = '.' :: padded w (n / fractionUnit w) := by
  unfold fractionChars
  by_cases h₀ : n = 0
  · exact .inl ⟨h₀, if_pos h₀⟩
  by_cases h₃ : n % 1000000 = 0
  · have hlt : n / 1000000 < 1000 := by omega
    have hdvd : n = n / 1000000 * 1000000 := by omega
    exact .inr ⟨3, length_nat_le (by decide) hlt, hdvd, (if_neg h₀).trans (if_pos h₃)⟩
  by_cases h₆ : n % 1000 = 0
  · have hlt : n / 1000 < 1000000 := by omega
    have hdvd : n = n / 1000 * 1000 := by omega
    exact .inr ⟨6, length_nat_le (by decide) hlt, hdvd,
      (if_neg h₀).trans ((if_neg h₃).trans (if_pos h₆))⟩
  · have hone : n / fractionUnit 9 = n := Nat.div_one n
    rw [if_neg h₀, if_neg h₃, if_neg h₆]
    refine .inr ⟨9, ?_, ?_, ?_⟩
    · rw [hone]
      exact length_nat_le (by decide) h
    · rw [hone]
      exact (Nat.mul_one n).symm
    · rw [hone]

theorem leaves_isDigit {r : List Char} (hr : Leaves (fun c => c.isDigit || c = '.') r) :
    Leaves Char.isDigit r := by
  apply hr.mono
  intro c hc
  rw [Bool.or_eq_false_iff] at hc
  exact hc.1

theorem fractionChars_append_inj {m n : Nat} {r s : List Char} (hm : m < 1000000000)
    (hn : n < 1000000000) (hr : Leaves (fun c => c.isDigit || c = '.') r)
    (hs : Leaves (fun c => c.isDigit || c = '.') s)
    (h : fractionChars m ++ r = fractionChars n ++ s) : m = n ∧ r = s := by
  have hpoint : ∀ r, Leaves (fun c => c.isDigit || c = '.') r → ∀ t, r ≠ '.' :: t := by
    rintro r hr t rfl
    cases hr
  rcases fractionChars_cases hm with ⟨rfl, hfm⟩ | ⟨v, hlenv, hmv, hfm⟩
  · rcases fractionChars_cases hn with ⟨rfl, hfn⟩ | ⟨w, hlenw, hnw, hfn⟩
    · rw [hfm] at h
      exact ⟨rfl, h⟩
    · rw [hfm, hfn] at h
      exact absurd h (hpoint r hr _)
  · rcases fractionChars_cases hn with ⟨rfl, hfn⟩ | ⟨w, hlenw, hnw, hfn⟩
    · rw [hfm, hfn] at h
      exact absurd h.symm (hpoint s hs _)
    · rw [hfm, hfn, List.cons_append, List.cons_append] at h
      obtain ⟨hpadded, hrs⟩ := append_inj (fun _ => isDigit_of_mem_padded)
        (fun _ => isDigit_of_mem_padded) (leaves_isDigit hr) (leaves_isDigit hs) (List.cons.inj h).2
      -- The width tells the unit.
      have hlen := congrArg List.length hpadded
      rw [length_padded hlenv, length_padded hlenw] at hlen
      rw [hmv, hnw, padded_inj hpadded, hlen]
      exact ⟨rfl, hrs⟩

theorem leaves_offsetChars (offset : Int) :
    Leaves (fun c => c.isDigit || c = '.') (offsetChars offset) := by
  unfold offsetChars
  split
  · exact leaves_cons (by decide)
  · split
    · exact leaves_cons (by decide)
    · exact leaves_cons (by decide)

theorem offsetChars_of_ne_zero {offset : Int} (h : offset ≠ 0) : offsetChars offset =
    (if offset < 0 then '-' else '+') :: (padded 2 ((offset.natAbs + 30) / 60 / 60) ++
      ':' :: padded 2 ((offset.natAbs + 30) / 60 % 60)) := if_neg h

theorem sign_inj {a b : Int}
    (h : (if a < 0 then '-' else '+') = (if b < 0 then '-' else '+')) : a < 0 ↔ b < 0 := by
  by_cases ha : a < 0 <;> by_cases hb : b < 0 <;> simp [ha, hb] at h ⊢

theorem offsetChars_ne_utc {offset : Int} (h : offset ≠ 0) : offsetChars offset ≠ ['Z'] := by
  intro hz
  rw [offsetChars_of_ne_zero h] at hz
  split at hz
  · cases hz
  · cases hz

/-- An offset in whole minutes is not rounded. -/
theorem offsetChars_inj {a b : Int} (ha : a % 60 = 0) (hb : b % 60 = 0)
    (h : offsetChars a = offsetChars b) : a = b := by
  by_cases ha₀ : a = 0
  · by_cases hb₀ : b = 0
    · rw [ha₀, hb₀]
    · rw [ha₀] at h
      exact absurd h.symm (offsetChars_ne_utc hb₀)
  · by_cases hb₀ : b = 0
    · rw [hb₀] at h
      exact absurd h (offsetChars_ne_utc ha₀)
    · rw [offsetChars_of_ne_zero ha₀, offsetChars_of_ne_zero hb₀, List.cons.injEq] at h
      obtain ⟨hsign, hrest⟩ := h
      obtain ⟨hhours, hrest⟩ := padded_append_cons_inj (by decide) hrest
      have hminutes := padded_inj hrest
      have hneg := sign_inj hsign
      omega

theorem nanos_eq (t : Timestamp) : t.nanos = t.subsecond + t.isLeap.toNat * 1000000000 := by
  have hlt := t.nanos_lt
  unfold subsecond isLeap
  by_cases h : 1000000000 ≤ t.nanos
  · simp only [h, decide_true, Bool.toNat_true]
    omega
  · simp only [h, decide_false, Bool.toNat_false]
    omega

/-- The offset is written in full. -/
def isInMinutes (t : Timestamp) : Bool := t.offset % 60 = 0

/-- If it is in a leap second, this follows the last second of a minute. -/
def endsMinute (t : Timestamp) : Bool := !t.isLeap || t.seconds % 60 = 59

def isRegular (t : Timestamp) : Bool := t.isInMinutes && t.endsMinute

theorem subsecond_lt (t : Timestamp) : t.subsecond < 1000000000 := Nat.mod_lt _ (by decide)

theorem offset_of_isRegular {t : Timestamp} (h : t.isRegular = true) : t.offset % 60 = 0 :=
  of_decide_eq_true ((Bool.and_eq_true _ _).mp h).1

theorem secondOfDay_of_isLeap {t : Timestamp} (ht : t.isRegular = true) (h : t.isLeap = true) :
    t.secondOfDay % 60 = 59 := by
  have hoffset := offset_of_isRegular ht
  have hend : t.seconds % 60 = 59 := by
    simpa [endsMinute, h] using ((Bool.and_eq_true _ _).mp ht).2
  unfold secondOfDay localSeconds
  omega

/-- After the time of day there is no digit. -/
theorem leaves_fractionChars_append (t : Timestamp) :
    Leaves Char.isDigit (fractionChars t.subsecond ++ offsetChars t.offset) := by
  rcases fractionChars_cases t.subsecond_lt with ⟨-, hf⟩ | ⟨w, -, -, hf⟩
  · rw [hf, List.nil_append]
    exact leaves_isDigit (leaves_offsetChars t.offset)
  · rw [hf, List.cons_append]
    exact leaves_cons (by decide)

/-- An instant is known from the date and the second of the day at its offset. -/
theorem seconds_eq {t u : Timestamp} (hdate : t.date = u.date)
    (hsecond : t.secondOfDay = u.secondOfDay) (hoffset : t.offset = u.offset) :
    t.seconds = u.seconds := by
  have hday := congrArg Date.toDays hdate
  simp only [date, Date.toDays_ofDays] at hday
  unfold secondOfDay at hsecond
  unfold localSeconds at hday hsecond
  omega

/-- A regular timestamp is known from its text. -/
theorem chars_inj {t u : Timestamp} (ht : t.isRegular = true) (hu : u.isRegular = true)
    (h : t.chars = u.chars) : t = u := by
  simp only [chars, List.append_assoc, List.cons_append] at h
  obtain ⟨hdate, hrest⟩ := dateChars_append_inj h
  obtain ⟨hsecond, hleap, hrest⟩ := timeChars_append_inj (secondOfDay_of_isLeap ht)
    (secondOfDay_of_isLeap hu) t.leaves_fractionChars_append u.leaves_fractionChars_append hrest
  obtain ⟨hfraction, hrest⟩ := fractionChars_append_inj t.subsecond_lt u.subsecond_lt
    (leaves_offsetChars _) (leaves_offsetChars _) hrest
  have hoffset := offsetChars_inj (offset_of_isRegular ht) (offset_of_isRegular hu) hrest
  have hseconds := seconds_eq hdate hsecond hoffset
  have hnanos : t.nanos = u.nanos := by rw [nanos_eq t, nanos_eq u, hfraction, hleap]
  rcases t with ⟨seconds, nanos, offset⟩
  rcases u with ⟨seconds', nanos', offset'⟩
  obtain rfl : seconds = seconds' := hseconds
  obtain rfl : nanos = nanos' := hnanos
  obtain rfl : offset = offset' := hoffset
  rfl

/-- A leap second behind the fourth second is written like the fifth. -/
example : mk 4 1333333333 0 ≠ mk 5 333333333 0 ∧
    (mk 4 1333333333 0).chars = (mk 5 333333333 0).chars := by
  decide

/-- The characters of a timestamp. -/
def isTimestampChar (c : Char) : Bool := c.isDigit || ['-', '+', ':', '.', 'T', 'Z'].contains c

theorem isTimestampChar_of_mem {t : Timestamp} {c : Char} (hc : c ∈ t.chars) :
    isTimestampChar c = true := by
  have hpadded : ∀ w n, ∀ c ∈ padded w n, isTimestampChar c = true := by
    intro w n c hc
    simp [isTimestampChar, isDigit_of_mem_padded hc]
  have hyear : ∀ y, ∀ c ∈ yearChars y, isTimestampChar c = true := by
    intro y c hc
    rw [yearChars_eq] at hc
    rcases List.mem_append.mp hc with hc | hc
    · have hsign := isSign_of_mem_yearSign hc
      simp only [isSign, Bool.or_eq_true, decide_eq_true_eq] at hsign
      rcases hsign with rfl | rfl <;> rfl
    · exact hpadded _ _ c hc
  have hfraction : ∀ n, ∀ c ∈ fractionChars n, isTimestampChar c = true := by
    intro n
    unfold fractionChars
    split
    · intro c hc
      cases hc
    · split
      · exact List.forall_mem_cons.mpr ⟨by decide, hpadded _ _⟩
      · split
        · exact List.forall_mem_cons.mpr ⟨by decide, hpadded _ _⟩
        · exact List.forall_mem_cons.mpr ⟨by decide, hpadded _ _⟩
  have hoffset : ∀ a, ∀ c ∈ offsetChars a, isTimestampChar c = true := by
    intro a
    by_cases ha : a = 0
    · subst ha
      exact List.all_eq_true.mp rfl
    · rw [offsetChars_of_ne_zero ha]
      refine List.forall_mem_cons.mpr ⟨?_, List.forall_mem_append.mpr ⟨hpadded _ _, ?_⟩⟩
      · split <;> decide
      · exact List.forall_mem_cons.mpr ⟨by decide, hpadded _ _⟩
  have hall : ∀ c ∈ t.chars, isTimestampChar c = true := by
    simp only [chars, dateChars, timeChars, List.cons_append, List.append_assoc,
      List.forall_mem_append, List.forall_mem_cons]
    exact ⟨hyear _, by decide, hpadded _ _, by decide, hpadded _ _, by decide, hpadded _ _, by decide,
      hpadded _ _, by decide, hpadded _ _, hfraction _, hoffset _⟩
  exact hall c hc

theorem mark_mem_chars (t : Timestamp) : 'T' ∈ t.chars := by
  simp [chars]

theorem begins_chars (t : Timestamp) : Begins isNumberStart t.chars := by
  have hyear : Begins isNumberStart (yearChars t.date.year) := by
    unfold yearChars
    split
    · exact (begins_padded _ _).mono fun _ => isNumberStart_of_isDigit
    · split
      · exact begins_cons (by decide)
      · exact begins_cons (by decide)
  simp only [chars, dateChars, List.append_assoc]
  exact hyear.append _

/-- What is relied on where timestamps are printed in some way: a text begins like a number, has the
mark between date and time, and is made of the characters of a timestamp. Those that are `told` are
told apart by it. -/
structure IsStamp (told : Timestamp → Bool) (stamp : Timestamp → List Char) : Prop where
  begins : ∀ t, Begins isNumberStart (stamp t)
  mark : ∀ t, 'T' ∈ stamp t
  chars : ∀ t, ∀ c ∈ stamp t, isTimestampChar c = true
  inj : ∀ t u, told t = true → told u = true → stamp t = stamp u → t = u

theorem isStamp_chars : IsStamp isRegular chars where
  begins := begins_chars
  mark := mark_mem_chars
  chars _ _ := isTimestampChar_of_mem
  inj _ _ := chars_inj

/-- The instant that a leap second would be without being one. -/
def withoutLeap (t : Timestamp) : Timestamp :=
  ⟨t.seconds, t.subsecond, t.offset, Nat.lt_trans (Nat.mod_lt _ (by decide)) (by decide),
    t.offset_gt, t.offset_lt⟩

/-- A leap second in the midst of a minute is written as the second that it follows, behind a mark
that no date begins with. -/
def markedChars (t : Timestamp) : List Char :=
  if t.endsMinute then t.chars else '+' :: 'T' :: t.withoutLeap.chars

theorem isRegular_withoutLeap {t : Timestamp} (h : t.isInMinutes = true) :
    t.withoutLeap.isRegular = true := by
  have hleap : t.withoutLeap.isLeap = false := decide_eq_false (Nat.not_le_of_lt t.subsecond_lt)
  have hminutes : t.withoutLeap.isInMinutes = true := h
  rw [isRegular, hminutes, endsMinute, hleap]
  rfl

theorem withoutLeap_inj {t u : Timestamp} (ht : t.isLeap = true) (hu : u.isLeap = true)
    (h : t.withoutLeap = u.withoutLeap) : t = u := by
  have hnanos := nanos_eq t
  have hnanos' := nanos_eq u
  rcases t with ⟨seconds, nanos, offset⟩
  rcases u with ⟨seconds', nanos', offset'⟩
  obtain ⟨rfl, hsub, rfl⟩ := Timestamp.mk.inj h
  rw [ht, hsub] at hnanos
  rw [hu] at hnanos'
  obtain rfl : nanos = nanos' := hnanos.trans hnanos'.symm
  rfl

/-- After a sign there is a digit. -/
theorem chars_ne_marked (t : Timestamp) (r : List Char) : t.chars ≠ '+' :: 'T' :: r := by
  intro h
  simp only [chars, dateChars, yearChars_eq, List.append_assoc] at h
  have hmark : ∀ c ∈ ['+'], isSign c = true := List.all_eq_true.mp rfl
  obtain ⟨-, hrest⟩ := append_inj (s := 'T' :: r) (fun _ => isSign_of_mem_yearSign) hmark
    (leaves_padded_append _ _) (leaves_cons (by decide)) h
  exact (begins_padded 4 _).append_ne (by decide) hrest

/-- All timestamps in whole minutes can be told apart, wherever their leap seconds are. -/
theorem isStamp_markedChars : IsStamp isInMinutes markedChars where
  begins t := by
    unfold markedChars
    split
    · exact t.begins_chars
    · exact begins_cons (by decide)
  mark t := by
    unfold markedChars
    split
    · exact t.mark_mem_chars
    · exact List.mem_cons_of_mem _ List.mem_cons_self
  chars t := by
    unfold markedChars
    split
    · exact fun _ => isTimestampChar_of_mem
    · exact List.forall_mem_cons.mpr ⟨by decide, List.forall_mem_cons.mpr
        ⟨by decide, fun _ => isTimestampChar_of_mem⟩⟩
  inj t u ht hu h := by
    have hleap : ∀ t : Timestamp, t.endsMinute = false → t.isLeap = true := by
      intro t ht
      cases hleap : t.isLeap with
      | true => rfl
      | false => simp [endsMinute, hleap] at ht
    unfold markedChars at h
    cases hend : t.endsMinute <;> cases hend' : u.endsMinute <;>
      simp only [hend, hend', if_true, Bool.false_eq_true, if_false] at h
    · have hchars := (List.cons.inj (List.cons.inj h).2).2
      have heq := chars_inj (isRegular_withoutLeap ht) (isRegular_withoutLeap hu) hchars
      exact withoutLeap_inj (hleap t hend) (hleap u hend') heq
    · exact absurd h.symm (chars_ne_marked u _)
    · exact absurd h (chars_ne_marked t _)
    · apply chars_inj _ _ h
      · rw [isRegular, ht, hend]
        rfl
      · rw [isRegular, hu, hend']
        rfl

end IonDocument.Timestamp
