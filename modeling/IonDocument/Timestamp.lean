import IonDocument.Timestamp.Calendar
import IonDocument.Text.Numeral

/-! # Timestamps

An instant, in seconds and nanoseconds of universal time, with the offset of the place in
which it was written. Nanoseconds beyond a whole second belong to a leap second, whatever second
it follows. The text gives the date and the time of day at that offset.
-/
namespace IonDocument

structure Timestamp where
  seconds : Int
  nanos : Nat
  offset : Int
  nanos_lt : nanos < 2000000000 := by decide
  offset_gt : -86400 < offset := by decide
  offset_lt : offset < 86400 := by decide
  deriving DecidableEq

namespace Timestamp

/-- The timestamp of seconds since 1970, nanoseconds and seconds east of universal time. From a
count of seconds a leap second is only made at the end of a minute. -/
def ofParts? (seconds : Int) (nanos : Nat) (offset : Int) : Option Timestamp :=
  if h : nanos < 2000000000 ∧ (1000000000 ≤ nanos → seconds % 60 = 59) ∧
      -86400 < offset ∧ offset < 86400 then
    some ⟨seconds, nanos, offset, h.1, h.2.2.1, h.2.2.2⟩
  else none

def isLeap (t : Timestamp) : Bool := 1000000000 ≤ t.nanos

def subsecond (t : Timestamp) : Nat := t.nanos % 1000000000

def localSeconds (t : Timestamp) : Int := t.seconds + t.offset

def date (t : Timestamp) : Date := Date.ofDays (t.localSeconds / 86400)

def secondOfDay (t : Timestamp) : Nat := (t.localSeconds % 86400).toNat

/-- Four digits for the years 0 to 9999, and a sign before the others. -/
def yearChars (year : Int) : List Char :=
  if 0 ≤ year ∧ year ≤ 9999 then Numeral.padded 4 year.toNat
  else (if year < 0 then '-' else '+') :: Numeral.padded 4 year.natAbs

def dateChars (d : Date) : List Char :=
  yearChars d.year ++ '-' :: Numeral.padded 2 d.month ++ '-' :: Numeral.padded 2 d.day

/-- The time of day; a leap second is counted on top of the second that it follows. -/
def timeChars (secondOfDay : Nat) (leap : Bool) : List Char :=
  Numeral.padded 2 (secondOfDay / 3600) ++ ':' :: Numeral.padded 2 (secondOfDay / 60 % 60) ++
    ':' :: Numeral.padded 2 (secondOfDay % 60 + leap.toNat)

/-- The fewest of 0, 3, 6 and 9 digits that are exact. -/
def fractionChars (nanos : Nat) : List Char :=
  if nanos = 0 then []
  else if nanos % 1000000 = 0 then '.' :: Numeral.padded 3 (nanos / 1000000)
  else if nanos % 1000 = 0 then '.' :: Numeral.padded 6 (nanos / 1000)
  else '.' :: Numeral.padded 9 nanos

/-- Hours and minutes of an offset, to the nearest minute; `Z` only for no offset at all. -/
def offsetChars (offset : Int) : List Char :=
  if offset = 0 then ['Z']
  else
    let minutes := (offset.natAbs + 30) / 60
    (if offset < 0 then '-' else '+') ::
      Numeral.padded 2 (minutes / 60) ++ ':' :: Numeral.padded 2 (minutes % 60)

def chars (t : Timestamp) : List Char :=
  dateChars t.date ++ 'T' :: timeChars t.secondOfDay t.isLeap ++ fractionChars t.subsecond ++
    offsetChars t.offset

end Timestamp
end IonDocument
