import Cdoc.Foundation.Calendar
import Cdoc.HlcClock
import Cdoc.Recency

/-!
# The names of tables

A table is named by its timestamp, which is displayed as a date with the
format `%+` of another crate.  What this format prints is assumed here.
Opening sorts the names and reverses them, and takes the first for the
newest.
-/

namespace Cdoc

open Cdoc.Foundation

/-- `%+` prints the moments up to the year 9999 as dates in UTC. -/
def Chrono.PrintsMoments (chrono : Chrono) : Prop :=
  ∀ (millis : Nat) (date : chrono.DateTime), millis ≤ YEAR_9999 →
    chrono.fromTimestampMillis millis = some date →
    chrono.format date = momentText millis

section Names

variable {chrono : Chrono} (prints : chrono.PrintsMoments)

include prints

theorem Chrono.fileName_eq {ts : Timestamp}
    (dated : ts.val.toNat ≤ YEAR_9999) :
    chrono.rendering.fileName ts =
      .ok (momentText ts.val.toNat ++ Directory.DOT :: SST) := by
  have small : ts.val.toNat < 2 ^ 63 := dated.trans_lt (by decide)
  have millis : ts.asI64 = (ts.val.toNat : Int) := by
    rw [Timestamp.asI64_eq, if_pos small]
  have inRange : MIN_MILLIS ≤ (ts.val.toNat : Int) ∧
      (ts.val.toNat : Int) ≤ MAX_MILLIS := by
    rw [YEAR_9999] at dated
    rw [MIN_MILLIS, MAX_MILLIS]
    omega
  obtain ⟨date, found⟩ := Option.isSome_iff_exists.mp
    ((chrono.isSome_iff _).mpr inRange)
  have text := prints _ date dated found
  simp only [Rendering.fileName, Chrono.rendering, Timestamp.display,
    Timestamp.toDateTime, millis, found, ok_bind, pure_eq_ok, text]

theorem Chrono.orderedTo9999 : chrono.rendering.OrderedTo9999 := by
  intro earlier later left right less dated leftNamed rightNamed
  rw [chrono.fileName_eq prints (less.le.trans dated)] at leftNamed
  rw [chrono.fileName_eq prints dated] at rightNamed
  cases leftNamed
  cases rightNamed
  exact orderedBelow_momentText _ _ less (Nat.lt_succ_of_le dated) _ _

/--
Up to the year 9999 the names of tables sort like their timestamps, and the
reversed listing of any directory has the newer timestamps first.
-/
theorem Chrono.fileNames_sorted :
    (∀ earlier later : Timestamp, earlier.val < later.val →
      later.val.toNat ≤ YEAR_9999 →
      ∃ left right, chrono.rendering.fileName earlier = .ok left ∧
        chrono.rendering.fileName later = .ok right ∧ left < right) ∧
    ∀ directory : Directory,
      (Directory.filesWith SST directory).reverse.Pairwise
        fun newer older => ∀ newerTs olderTs : Timestamp,
          newerTs.val.toNat ≤ YEAR_9999 → olderTs.val.toNat ≤ YEAR_9999 →
          chrono.rendering.fileName newerTs = .ok newer.1 →
          chrono.rendering.fileName olderTs = .ok older.1 →
          olderTs.val < newerTs.val := by
  have ordered := chrono.orderedTo9999 prints
  constructor
  · intro earlier later less dated
    rw [UInt64.lt_iff_toNat_lt] at less
    have leftNamed := chrono.fileName_eq prints (less.le.trans dated)
    have rightNamed := chrono.fileName_eq prints dated
    exact ⟨_, _, leftNamed, rightNamed,
      ordered earlier later _ _ less dated leftNamed rightNamed⟩
  · intro directory
    rw [List.pairwise_reverse]
    refine (directory.select _).increasing.imp ?_
    intro older newer less newerTs olderTs newerDated olderDated
      newerNamed olderNamed
    rw [UInt64.lt_iff_toNat_lt]
    by_contra notOlder
    rcases (Nat.le_of_not_lt notOlder).lt_or_eq with before | same
    · have greater := ordered newerTs olderTs _ _ before olderDated
        newerNamed olderNamed
      exact lt_asymm less greater
    · have sameTs : newerTs = olderTs :=
        congrArg Timestamp.mk (UInt64.toNat_inj.mp same)
      rw [sameTs, olderNamed, Except.ok.injEq] at newerNamed
      exact less.ne newerNamed

end Names

/-- Dates as their milliseconds, displayed by the calendar. -/
def Chrono.gregorian : Chrono where
  DateTime := Int
  fromTimestampMillis := Chrono.millis.fromTimestampMillis
  isSome_iff := Chrono.millis.isSome_iff
  format := fun millis => momentText millis.toNat
  format_ne_nil := by
    intro millis
    simp [momentText, dateText, decimal, decimalDigit]

/-- The last millisecond of a leap day and the whole second behind it. -/
theorem Chrono.fileNames_sorted_leapDay :
    ∃ left right,
      Chrono.gregorian.rendering.fileName ⟨951868799999⟩ = .ok left ∧
        Chrono.gregorian.rendering.fileName ⟨951868800000⟩ = .ok right ∧
        left < right := by
  have prints : Chrono.gregorian.PrintsMoments := by
    intro millis date _ found
    simp only [Chrono.gregorian, Chrono.millis] at found
    split at found
    · cases found
      exact congrArg momentText (Int.toNat_natCast millis)
    · cases found
  exact (Chrono.fileNames_sorted prints).1 _ _ (by decide) (by decide)

end Cdoc
