import Cdoc.Db

/-!
# Remote timestamps and the clock

Deserialising a timestamp raises the counter to any 64-bit number a peer
sends, and every later `now` goes on from there.  Two limits lie above: the
increment overflows, and `Display` converts to a date of another crate which
is only defined on a range.

The limits concern the greatest number among all that was received or read
from the wall clock, each raised by the calls of `now` since.  `levels`
collects these numbers from the calls alone, and the clock stays usable
exactly when they stay within the limits.
-/

namespace Cdoc

open Cdoc.Foundation

/-! ## Dates -/

/-- The first millisecond of the earliest date, in the year -262143. -/
def MIN_MILLIS : Int := -8334601228800000

/-- The last millisecond of the latest date, in the year 262142. -/
def MAX_MILLIS : Int := 8210266876799999

/-- Dates and their display, which are left to another crate. -/
structure Chrono where
  DateTime : Type
  fromTimestampMillis : Int → Option DateTime
  isSome_iff : ∀ millis, (fromTimestampMillis millis).isSome ↔
    MIN_MILLIS ≤ millis ∧ millis ≤ MAX_MILLIS
  format : DateTime → Bytes
  format_ne_nil : ∀ date, format date ≠ []

namespace Timestamp

/-- `value.0.get() as i64`. -/
def asI64 (timestamp : Timestamp) : Int :=
  timestamp.val.toInt64.toInt

/-- `From<Timestamp> for DateTime<Utc>`, with its `unwrap`. -/
def toDateTime (chrono : Chrono) (timestamp : Timestamp) :
    Checked chrono.DateTime :=
  match chrono.fromTimestampMillis timestamp.asI64 with
  | some date => .ok date
  | none => .error .unwrap

/-- `Display` for a timestamp: the date is formatted, or computing it panics. -/
def display (chrono : Chrono) (timestamp : Timestamp) : Checked Bytes := do
  let date ← timestamp.toDateTime chrono
  return chrono.format date

theorem asI64_eq (timestamp : Timestamp) :
    timestamp.asI64 =
      if timestamp.val.toNat < 2 ^ 63 then (timestamp.val.toNat : Int)
      else (timestamp.val.toNat : Int) - 2 ^ 64 := by
  change timestamp.val.toBitVec.toInt = _
  rw [BitVec.toInt_eq_toNat_cond, UInt64.toNat_toBitVec]
  have half : 2 * timestamp.val.toNat < 2 ^ 64 ↔
      timestamp.val.toNat < 2 ^ 63 := by omega
  simp only [half]
  rfl

/-- The timestamps which have a date: the cast wraps the largest ones. -/
theorem exists_display_iff (chrono : Chrono) (timestamp : Timestamp) :
    (∃ text, timestamp.display chrono = .ok text) ↔
      timestamp.val.toNat ≤ 8210266876799999 ∨
        2 ^ 64 - 8334601228800000 ≤ timestamp.val.toNat := by
  have bound := timestamp.val.toNat_lt
  have dated : (∃ text, timestamp.display chrono = .ok text) ↔
      (chrono.fromTimestampMillis timestamp.asI64).isSome := by
    unfold display toDateTime
    cases chrono.fromTimestampMillis timestamp.asI64 <;> simp
  rw [dated, chrono.isSome_iff, asI64_eq, MIN_MILLIS, MAX_MILLIS]
  split <;> omega

end Timestamp

/-- The rendering which names the files of the database. -/
def Chrono.rendering (chrono : Chrono) : Rendering where
  display := Timestamp.display chrono
  nonempty := by
    intro ts text displayed
    simp only [Timestamp.display, bind_eq_ok_iff, pure_eq_ok,
      Except.ok.injEq] at displayed
    obtain ⟨date, _, rfl⟩ := displayed
    exact chrono.format_ne_nil date

/-! ## Calls of the clock -/

/-- A call which moves the counter. -/
inductive ClockCall where
  /-- `visit_u64`: a timestamp arrives from a peer. -/
  | deserialize (value : UInt64)
  | now (clock : UInt64)
deriving DecidableEq, Repr

namespace ClockCall

/-- The counter after a call, and the timestamp which it returns. -/
def perform (counter : UInt64) : ClockCall → Checked (UInt64 × Timestamp)
  | .deserialize value =>
      let timestamp := Timestamp.new value
      .ok ((Timestamp.sync counter timestamp).1, timestamp)
  | .now clock => do
      let timestamp ← Timestamp.now counter clock
      return (timestamp.val, timestamp)

/-- The counter after a list of calls, and all timestamps returned. -/
def performAll : UInt64 → List ClockCall →
    Checked (UInt64 × List Timestamp)
  | counter, [] => .ok (counter, [])
  | counter, call :: rest => do
      let (counter, timestamp) ← call.perform counter
      let (counter, timestamps) ← performAll counter rest
      return (counter, timestamp :: timestamps)

/--
Every `now` of a list of calls succeeds, is above everything seen before and
can be displayed.
-/
def Unpoisoned (chrono : Chrono) (calls : List ClockCall) : Prop :=
  ∀ before clock after, calls = before ++ .now clock :: after →
    ∃ counter earlier timestamp text,
      performAll 0 before = .ok (counter, earlier) ∧
      Timestamp.now counter clock = .ok timestamp ∧
      (∀ seen ∈ earlier, seen.val < timestamp.val) ∧
      timestamp.display chrono = .ok text

/--
The numbers received or read so far, each raised by one for every `now`
which has seen it.
-/
def levels (calls : List ClockCall) : List Nat :=
  calls.foldl (fun levels call =>
    match call with
    | .deserialize value => value.toNat :: levels
    | .now clock =>
        ((clock &&& Timestamp.MASK).toNat :: levels).map (· + 1)) [0]

/-- The greatest of the levels is a 64-bit number which has a date. -/
def Bearable (levels : List Nat) : Prop :=
  (∀ level ∈ levels, level ≤ 8210266876799999) ∨
    (∀ level ∈ levels, level < 2 ^ 64) ∧
      ∃ level ∈ levels, 2 ^ 64 - 8334601228800000 ≤ level

theorem levels_append_deserialize (calls : List ClockCall)
    (value : UInt64) :
    levels (calls ++ [.deserialize value]) =
      value.toNat :: levels calls := by
  simp [levels]

theorem levels_append_now (calls : List ClockCall) (clock : UInt64) :
    levels (calls ++ [.now clock]) =
      ((clock &&& Timestamp.MASK).toNat :: levels calls).map (· + 1) := by
  simp [levels]

theorem performAll_append {counter : UInt64}
    {first second : List ClockCall} :
    performAll counter (first ++ second) = (do
      let (counter, earlier) ← performAll counter first
      let (counter, later) ← performAll counter second
      return (counter, earlier ++ later)) := by
  induction first generalizing counter with
  | nil =>
      simp only [List.nil_append, performAll, ok_bind]
      cases performAll counter second <;> rfl
  | cons call rest induction =>
      simp only [List.cons_append, performAll]
      cases call.perform counter with
      | error failure => rfl
      | ok result =>
          simp only [ok_bind, induction]
          cases performAll result.1 rest with
          | error failure => rfl
          | ok earlier =>
              simp only [ok_bind, pure_eq_ok]
              cases performAll earlier.1 second <;> rfl

/-- The last call of a list. -/
theorem performAll_concat_eq_ok_iff {calls : List ClockCall}
    {call : ClockCall} {counter : UInt64} {timestamps : List Timestamp} :
    performAll 0 (calls ++ [call]) = .ok (counter, timestamps) ↔
      ∃ middle earlier timestamp,
        performAll 0 calls = .ok (middle, earlier) ∧
        call.perform middle = .ok (counter, timestamp) ∧
        timestamps = earlier ++ [timestamp] := by
  rw [performAll_append]
  cases performAll 0 calls with
  | error failure => simp
  | ok result =>
      obtain ⟨middle, earlier⟩ := result
      cases performed : call.perform middle with
      | error failure => simp [performAll, performed]
      | ok result =>
          obtain ⟨counter', timestamp⟩ := result
          simp [performAll, performed, eq_comm]

/-- The counter is the greatest level, and no timestamp is above it. -/
theorem counter_of_performAll {calls : List ClockCall} {counter : UInt64}
    {timestamps : List Timestamp}
    (performed : performAll 0 calls = .ok (counter, timestamps)) :
    counter.toNat ∈ levels calls ∧
      (∀ level ∈ levels calls, level ≤ counter.toNat) ∧
      ∀ seen ∈ timestamps, seen.val.toNat ≤ counter.toNat := by
  induction calls using List.reverseRecOn generalizing counter timestamps with
  | nil =>
      cases performed
      simp [levels]
  | append_singleton calls call induction =>
      obtain ⟨middle, earlier, timestamp, before, last, rfl⟩ :=
        performAll_concat_eq_ok_iff.mp performed
      obtain ⟨member, greatest, seenBefore⟩ := induction before
      -- both kinds of call raise the counter to a new greatest level
      have result : counter.toNat ∈ levels (calls ++ [call]) ∧
          (∀ level ∈ levels (calls ++ [call]), level ≤ counter.toNat) ∧
          middle.toNat ≤ counter.toNat ∧
          timestamp.val.toNat ≤ counter.toNat := by
        cases call with
        | deserialize value =>
            obtain ⟨rfl, rfl⟩ := Prod.mk.inj (Except.ok.inj last)
            rw [levels_append_deserialize, Timestamp.toNat_sync]
            refine ⟨?_, ?_, Nat.le_max_left _ _, Nat.le_max_right _ _⟩
            · rcases Nat.le_total middle.toNat value.toNat with le | le
              · exact List.mem_cons.mpr (Or.inl (Nat.max_eq_right le))
              · rw [Timestamp.new, Nat.max_eq_left le]
                exact List.mem_cons_of_mem _ member
            · intro level inLevels
              rcases List.mem_cons.mp inLevels with rfl | inBefore
              · exact Nat.le_max_right _ _
              · exact (greatest level inBefore).trans (Nat.le_max_left _ _)
        | now clock =>
            simp only [perform, bind_eq_ok_iff, pure_eq_ok,
              Except.ok.injEq, Prod.mk.injEq] at last
            obtain ⟨_, time, rfl, rfl⟩ := last
            rw [levels_append_now, Timestamp.now_eq_ok_iff.mp time]
            refine ⟨List.mem_map.mpr ⟨_, ?_, rfl⟩, ?_, by omega, le_rfl⟩
            · rcases Nat.le_total (clock &&& Timestamp.MASK).toNat
                middle.toNat with le | le
              · rw [Nat.max_eq_right le]
                exact List.mem_cons_of_mem _ member
              · rw [Nat.max_eq_left le]
                exact List.mem_cons_self
            · intro level inLevels
              obtain ⟨raised, inBefore, rfl⟩ := List.mem_map.mp inLevels
              apply Nat.succ_le_succ
              rcases List.mem_cons.mp inBefore with rfl | inBefore
              · exact Nat.le_max_left _ _
              · exact (greatest raised inBefore).trans (Nat.le_max_right _ _)
      obtain ⟨isLevel, isGreatest, grows, last⟩ := result
      refine ⟨isLevel, isGreatest, ?_⟩
      intro seen inSeen
      rcases List.mem_append.mp inSeen with inEarlier | isLast
      · exact (seenBefore seen inEarlier).trans grows
      · rw [List.mem_singleton.mp isLast]
        exact last

/-- Without overflow all calls succeed. -/
theorem exists_performAll {calls : List ClockCall}
    (bounded : ∀ before clock after, calls = before ++ .now clock :: after →
      ∀ level ∈ levels (before ++ [.now clock]), level < 2 ^ 64) :
    ∃ counter timestamps, performAll 0 calls = .ok (counter, timestamps) := by
  induction calls using List.reverseRecOn with
  | nil => exact ⟨0, [], rfl⟩
  | append_singleton calls call induction =>
      have early (before : List ClockCall) (clock : UInt64)
          (after : List ClockCall)
          (split : calls = before ++ .now clock :: after) :=
        bounded before clock (after ++ [call]) (by rw [split]; simp)
      obtain ⟨middle, earlier, before⟩ := induction early
      have performs : ∃ counter timestamp,
          call.perform middle = .ok (counter, timestamp) := by
        cases call with
        | deserialize value => exact ⟨_, _, rfl⟩
        | now clock =>
            have fits := bounded calls clock [] rfl
            rw [levels_append_now] at fits
            have next : max (clock &&& Timestamp.MASK).toNat
                middle.toNat + 1 < 2 ^ 64 := by
              have clockFits := fits _
                (List.mem_map_of_mem List.mem_cons_self)
              have counterFits := fits _ (List.mem_map_of_mem
                (List.mem_cons_of_mem _ (counter_of_performAll before).1))
              omega
            obtain ⟨timestamp, time⟩ := Timestamp.exists_now next
            exact ⟨timestamp.val, timestamp, by simp [perform, time]⟩
      obtain ⟨counter, timestamp, last⟩ := performs
      exact ⟨counter, earlier ++ [timestamp],
        performAll_concat_eq_ok_iff.mpr
          ⟨middle, earlier, timestamp, before, last, rfl⟩⟩

/-- The timestamp of a `now` is the greatest level after it. -/
theorem greatest_of_now {calls : List ClockCall} {clock counter : UInt64}
    {earlier : List Timestamp} {timestamp : Timestamp}
    (before : performAll 0 calls = .ok (counter, earlier))
    (time : Timestamp.now counter clock = .ok timestamp) :
    timestamp.val.toNat ∈ levels (calls ++ [.now clock]) ∧
      ∀ level ∈ levels (calls ++ [.now clock]),
        level ≤ timestamp.val.toNat := by
  have performed : performAll 0 (calls ++ [.now clock]) =
      .ok (timestamp.val, earlier ++ [timestamp]) :=
    performAll_concat_eq_ok_iff.mpr
      ⟨counter, earlier, timestamp, before, by simp [perform, time], rfl⟩
  obtain ⟨member, greatest, _⟩ := counter_of_performAll performed
  exact ⟨member, greatest⟩

theorem bearable_iff_of_greatest {levels : List Nat} {top : Nat}
    (member : top ∈ levels) (greatest : ∀ level ∈ levels, level ≤ top)
    (fits : top < 2 ^ 64) :
    Bearable levels ↔
      top ≤ 8210266876799999 ∨ 2 ^ 64 - 8334601228800000 ≤ top := by
  constructor
  · rintro (low | ⟨_, level, inLevels, high⟩)
    · exact Or.inl (low top member)
    · exact Or.inr (high.trans (greatest level inLevels))
  · rintro (low | high)
    · exact Or.inl fun level inLevels =>
        (greatest level inLevels).trans low
    · exact Or.inr ⟨fun level inLevels =>
        (greatest level inLevels).trans_lt fits, top, member, high⟩

theorem Bearable.lt {levels : List Nat} (bearable : Bearable levels) :
    ∀ level ∈ levels, level < 2 ^ 64 := by
  rcases bearable with low | ⟨fits, _⟩
  · intro level inLevels
    have bound := low level inLevels
    omega
  · exact fits

/--
Whatever peers send and whatever the wall clock reads, the calls of `now`
succeed, grow and can be displayed exactly when the numbers received and
read, raised by the calls since, are bearable at each of them.
-/
theorem unpoisoned_iff_bearable (chrono : Chrono)
    (calls : List ClockCall) :
    Unpoisoned chrono calls ↔
      ∀ before clock after, calls = before ++ .now clock :: after →
        Bearable (levels (before ++ [.now clock])) := by
  constructor
  · intro unpoisoned before clock after split
    obtain ⟨counter, earlier, timestamp, text, performed, time, _,
      displayed⟩ := unpoisoned before clock after split
    obtain ⟨member, greatest⟩ := greatest_of_now performed time
    rw [bearable_iff_of_greatest member greatest timestamp.val.toNat_lt]
    exact (Timestamp.exists_display_iff chrono timestamp).mp
      ⟨text, displayed⟩
  · intro bearable before clock after split
    have bounded (front : List ClockCall) (reading : UInt64)
        (back : List ClockCall)
        (within : before ++ [.now clock] = front ++ .now reading :: back) :
        ∀ level ∈ levels (front ++ [.now reading]), level < 2 ^ 64 := by
      have whole : calls = front ++ .now reading :: (back ++ after) := by
        rw [split, ← List.singleton_append, ← List.append_assoc, within]
        simp
      exact (bearable front reading (back ++ after) whole).lt
    obtain ⟨final, timestamps, all⟩ := exists_performAll bounded
    obtain ⟨counter, earlier, timestamp, performed, last, _⟩ :=
      performAll_concat_eq_ok_iff.mp all
    simp only [perform, bind_eq_ok_iff, pure_eq_ok, Except.ok.injEq,
      Prod.mk.injEq] at last
    obtain ⟨_, time, _, rfl⟩ := last
    obtain ⟨member, greatest⟩ := greatest_of_now performed time
    obtain ⟨text, displayed⟩ :=
      (Timestamp.exists_display_iff chrono _).mpr
        ((bearable_iff_of_greatest member greatest
          (UInt64.toNat_lt _)).mp (bearable before clock after split))
    refine ⟨counter, earlier, _, text, performed, time, ?_, displayed⟩
    intro seen inEarlier
    rw [UInt64.lt_iff_toNat_lt]
    exact ((counter_of_performAll performed).2.2 seen inEarlier).trans_lt
      (Timestamp.counter_lt_of_now time)

end ClockCall

/-- Dates as their milliseconds, displayed by a fixed text. -/
def Chrono.millis : Chrono where
  DateTime := Int
  fromTimestampMillis := fun millis =>
    if MIN_MILLIS ≤ millis ∧ millis ≤ MAX_MILLIS then some millis else none
  isSome_iff := by
    intro millis
    split <;> simp_all
  format := fun _ => [0x30]
  format_ne_nil := by simp

/-- A peer sends the largest timestamp, and `now` overflows. -/
theorem ClockCall.largest_poisons :
    ¬ ClockCall.Unpoisoned Chrono.millis
      [.deserialize 0xffffffffffffffff, .now 0] := by
  intro unpoisoned
  obtain ⟨counter, earlier, timestamp, _, performed, time, _⟩ :=
    unpoisoned [.deserialize 0xffffffffffffffff] 0 [] rfl
  cases performed
  have overflow : Timestamp.now 0xffffffffffffffff 0 = .error .overflow :=
    rfl
  have failed := overflow.symm.trans time
  cases failed

end Cdoc
