import Cdoc.Foundation.TextOrder

/-!
# Dates as ordered texts

The Gregorian calendar without leap seconds, from the year 1970 on, and the
text of a moment in it: date and time with all leading zeros, milliseconds
unless they are zero, and the offset of UTC.

Years and months are blocks of days, and the smaller units are blocks of
milliseconds.  Up to the year 9999 the texts are therefore ordered like the
moments.  The missing milliseconds of a whole second do not disturb the
order, because the sign of the offset is below the dot.
-/

namespace Cdoc.Foundation

/-! ## The calendar -/

/-- Every fourth year, but of the hundredth ones only every fourth. -/
def isLeapYear (year : Nat) : Bool :=
  year % 4 == 0 && (year % 100 != 0 || year % 400 == 0)

/-- The length of a year in days. -/
def daysInYear (year : Nat) : Nat :=
  if isLeapYear year then 366 else 365

/-- Months are counted from one. -/
def daysInMonth (year month : Nat) : Nat :=
  if month = 2 then
    if isLeapYear year then 29 else 28
  else if month = 4 ∨ month = 6 ∨ month = 9 ∨ month = 11 then
    30
  else
    31

/-- The year, up to 9999, of a day since 1970, and its place in the year. -/
def yearOf (day : Nat) : Nat × Nat :=
  locate daysInYear 8029 1970 day

/-- The month of a day of a year, and its place in the month. -/
def monthOf (year day : Nat) : Nat × Nat :=
  locate (daysInMonth year) 11 1 day

/-- How many of the years before this one are divisible by a number. -/
def multiplesBefore (step year : Nat) : Nat :=
  (year + (step - 1)) / step

theorem multiplesBefore_succ {step : Nat} (positive : 0 < step)
    (year : Nat) :
    multiplesBefore step (year + 1) =
      multiplesBefore step year + if year % step = 0 then 1 else 0 := by
  unfold multiplesBefore
  rw [show year + 1 + (step - 1) = year + step by omega,
    Nat.add_div_right _ positive]
  have parts := Nat.div_add_mod year step
  have small := Nat.mod_lt year positive
  split
  · rename_i divisible
    rw [divisible, Nat.add_zero] at parts
    rw [← parts, Nat.mul_add_div positive, Nat.mul_div_right _ positive,
      Nat.div_eq_of_lt (show step - 1 < step by omega)]
  · rename_i remainder
    have below : year % step - 1 < step := by omega
    rw [show year + (step - 1) =
      step * (year / step + 1) + (year % step - 1) by
        rw [Nat.mul_add, Nat.mul_one]
        omega, Nat.mul_add_div positive, Nat.div_eq_of_lt below]

theorem isLeapYear_iff (year : Nat) :
    isLeapYear year = true ↔
      year % 4 = 0 ∧ (year % 100 ≠ 0 ∨ year % 400 = 0) := by
  simp [isLeapYear]

/-- A leap day in every fourth year, except in three of four centuries. -/
theorem daysInYear_add (year : Nat) :
    daysInYear year + (if year % 100 = 0 then 1 else 0) =
      365 + (if year % 4 = 0 then 1 else 0) +
        (if year % 400 = 0 then 1 else 0) := by
  have leap := isLeapYear_iff year
  have centuries : year % 100 = 0 → year % 4 = 0 := by omega
  have fourCenturies : year % 400 = 0 → year % 100 = 0 := by omega
  unfold daysInYear
  by_cases isLeap : isLeapYear year = true
  · obtain ⟨fourth, century⟩ := leap.mp isLeap
    rw [if_pos isLeap, if_pos fourth]
    split_ifs <;> omega
  · have notDivisible :
        ¬ (year % 4 = 0 ∧ (year % 100 ≠ 0 ∨ year % 400 = 0)) :=
      fun divisible => isLeap (leap.mpr divisible)
    rw [if_neg isLeap]
    split_ifs <;> omega

/-- The days of some years, with the leap days which centuries lack. -/
theorem span_daysInYear (first count : Nat) :
    span daysInYear first count + multiplesBefore 100 (first + count) +
        multiplesBefore 4 first + multiplesBefore 400 first =
      365 * count + multiplesBefore 4 (first + count) +
        multiplesBefore 400 (first + count) + multiplesBefore 100 first := by
  induction count generalizing first with
  | zero =>
      rw [span, Nat.add_zero]
      omega
  | succ count induction =>
      have rest := induction (first + 1)
      have year := daysInYear_add first
      rw [multiplesBefore_succ (by decide), multiplesBefore_succ (by decide),
        multiplesBefore_succ (by decide)] at rest
      rw [span, show first + (count + 1) = first + 1 + count by omega]
      omega

theorem span_daysInMonth (year : Nat) :
    span (daysInMonth year) 1 12 = daysInYear year := by
  unfold daysInYear
  cases leap : isLeapYear year <;> simp [span, daysInMonth, leap]

/-! ## Texts -/

/-- `YYYY-MM-DD`. -/
def monthText (year day : Nat) : Bytes :=
  decimal 2 (monthOf year day).1 ++ [0x2d] ++
    decimal 2 ((monthOf year day).2 + 1)

/-- Year, month and day of a day counted from the beginning of 1970. -/
def dateText (day : Nat) : Bytes :=
  decimal 4 (yearOf day).1 ++ [0x2d] ++
    monthText (yearOf day).1 (yearOf day).2

/-- `.mmm` unless there are no milliseconds, and `+00:00`. -/
def fractionText (millis : Nat) : Bytes :=
  (if millis = 0 then [] else 0x2e :: decimal 3 millis) ++
    [0x2b, 0x30, 0x30, 0x3a, 0x30, 0x30]

/-- The seconds and milliseconds of a moment within a minute. -/
def secondText (millis : Nat) : Bytes :=
  decimal 2 (millis / 1000) ++ fractionText (millis % 1000)

/-- The minutes of a moment within an hour, and what is below them. -/
def minuteText (millis : Nat) : Bytes :=
  decimal 2 (millis / 60000) ++ [0x3a] ++ secondText (millis % 60000)

/-- The hours of a moment within a day, and what is below them. -/
def hourText (millis : Nat) : Bytes :=
  decimal 2 (millis / 3600000) ++ [0x3a] ++ minuteText (millis % 3600000)

/-- `YYYY-MM-DDTHH:MM:SS.mmm+00:00` for milliseconds since 1970. -/
def momentText (millis : Nat) : Bytes :=
  dateText (millis / 86400000) ++ [0x54] ++ hourText (millis % 86400000)

/-! ## The order of texts -/

theorem orderedBelow_monthText (year : Nat) :
    OrderedBelow (daysInYear year) (monthText year) := by
  refine OrderedBelow.nest (monthOf year) (daysInMonth year)
    (fun _ day => decimal 2 (day + 1)) ?_ ?_
    (((orderedBelow_decimal 2).mono (by decide : 13 ≤ 100)).append [0x2d]) ?_
  · intro left right less
    exact locate_lt_locate _ 11 1 less
  · intro day small
    rw [← span_daysInMonth] at small
    exact ⟨locate_lt _ small, locate_place _ small⟩
  · intro month _
    refine (OrderedBelow.mono (orderedBelow_decimal 2) ?_).succ
    unfold daysInMonth
    split_ifs <;> decide

/-- The days up to the year 10000, with the number of years a variable. -/
theorem span_years {count : Nat} (years : count = 8030) :
    span daysInYear 1970 count = 2932897 := by
  have total := span_daysInYear 1970 count
  simp only [multiplesBefore] at total
  omega

theorem orderedBelow_dateText : OrderedBelow 2932897 dateText := by
  refine OrderedBelow.nest yearOf daysInYear monthText ?_ ?_
    ((orderedBelow_decimal 4).append [0x2d]) ?_
  · intro left right less
    exact locate_lt_locate _ 8029 1970 less
  · intro day small
    rw [← span_years (show 8029 + 1 = 8030 from rfl)] at small
    exact ⟨locate_lt _ small, locate_place _ small⟩
  · intro year _
    exact orderedBelow_monthText year

/-- The sign of the offset is below the dot. -/
theorem orderedBelow_fractionText : OrderedBelow 1000 fractionText := by
  intro left right less small leftRest rightRest
  unfold fractionText
  rw [if_neg (show right ≠ 0 by omega)]
  by_cases whole : left = 0
  · rw [if_pos whole]
    exact List.cons_lt_cons_iff.mpr (Or.inl (by decide))
  · rw [if_neg whole, List.append_assoc, List.append_assoc]
    exact List.cons_lt_cons_iff.mpr
      (Or.inr ⟨rfl, orderedBelow_decimal 3 left right less small _ _⟩)

theorem orderedBelow_secondText : OrderedBelow 60000 secondText :=
  OrderedBelow.nestDiv (by decide) (by decide) (orderedBelow_decimal 2)
    orderedBelow_fractionText

theorem orderedBelow_minuteText : OrderedBelow 3600000 minuteText :=
  OrderedBelow.nestDiv (by decide) (by decide)
    ((orderedBelow_decimal 2).append [0x3a]) orderedBelow_secondText

theorem orderedBelow_hourText : OrderedBelow 86400000 hourText :=
  OrderedBelow.nestDiv (by decide) (by decide)
    ((orderedBelow_decimal 2).append [0x3a]) orderedBelow_minuteText

/-- Moments up to the end of 9999 are ordered like their texts. -/
theorem orderedBelow_momentText :
    OrderedBelow 253402300800000 momentText :=
  OrderedBelow.nestDiv (by decide) (by decide)
    (orderedBelow_dateText.append [0x54]) orderedBelow_hourText

example : momentText 951868799999 =
    "2000-02-29T23:59:59.999+00:00".toByteArray.data.toList := by
  decide

example : momentText 951868800000 =
    "2000-03-01T00:00:00+00:00".toByteArray.data.toList := by
  decide

end Cdoc.Foundation
