import Cdoc.Foundation.Checked

/-!
# Hybrid logical timestamps

The model of `src/hlc.rs`.  A timestamp is a 64-bit number of milliseconds;
its bytes are big-endian.  `now` combines the wall clock with the counter
shared by the whole process, and panics when the increment overflows.
-/

namespace Cdoc

open Cdoc.Foundation

/-- A hybrid time: milliseconds of a clock whose lowest bits count events. -/
structure Timestamp where
  val : UInt64
deriving DecidableEq, Repr

namespace Timestamp

/-- The mask clears the lowest eight bits. -/
def MASK : UInt64 := ~~~0xff

/-- `Timestamp::new`, which takes any milliseconds. -/
def new (unixMillis : UInt64) : Timestamp :=
  ⟨unixMillis⟩

/-- The eight bytes of a timestamp as it lies in memory. -/
def asBytes (timestamp : Timestamp) : Bytes :=
  beBytes 8 timestamp.val.toNat

/--
`now` without other threads: from the counter and the clock reading, the
timestamp, which is also the next value of the counter.
-/
def now (counter clock : UInt64) : Checked Timestamp := do
  let masked := clock &&& MASK
  let latest := max masked.toNat counter.toNat
  if latest + 1 < 2 ^ 64 then
    return ⟨UInt64.ofNat (latest + 1)⟩
  else
    .error .overflow

/--
`sync`: one `fetch_max` of the counter.  The new value of the counter, and
the result, which is the value before.
-/
def sync (counter : UInt64) (timestamp : Timestamp) :
    UInt64 × Timestamp :=
  (if counter ≤ timestamp.val then timestamp.val else counter, ⟨counter⟩)

@[simp]
theorem length_asBytes (timestamp : Timestamp) :
    timestamp.asBytes.length = 8 := by
  simp [asBytes]

theorem ofBeBytes_asBytes (timestamp : Timestamp) :
    ofBeBytes timestamp.asBytes = timestamp.val.toNat :=
  ofBeBytes_beBytes timestamp.val.toNat_lt

/-- The timestamp is the successor of the clock or of the counter. -/
theorem now_eq_ok_iff {counter clock : UInt64} {ts : Timestamp} :
    now counter clock = .ok ts ↔
      ts.val.toNat = max (clock &&& MASK).toNat counter.toNat + 1 := by
  constructor
  · intro time
    unfold now at time
    dsimp only at time
    split at time
    · rename_i fits
      cases time
      rw [UInt64.toNat_ofNat', Nat.mod_eq_of_lt fits]
    · cases time
  · intro value
    have fits := ts.val.toNat_lt
    rw [value] at fits
    unfold now
    dsimp only
    rw [if_pos fits, ← value, UInt64.ofNat_toNat]
    rfl

/-- The timestamp exists unless the increment overflows. -/
theorem exists_now {counter clock : UInt64}
    (fits : max (clock &&& MASK).toNat counter.toNat + 1 < 2 ^ 64) :
    ∃ ts, now counter clock = .ok ts := by
  refine ⟨⟨UInt64.ofNat (max (clock &&& MASK).toNat counter.toNat + 1)⟩,
    now_eq_ok_iff.mpr ?_⟩
  rw [UInt64.toNat_ofNat', Nat.mod_eq_of_lt fits]

/-- The timestamp is ahead of the counter. -/
theorem counter_lt_of_now {counter clock : UInt64}
    {ts : Timestamp} (time : now counter clock = .ok ts) :
    counter.toNat < ts.val.toNat := by
  rw [now_eq_ok_iff.mp time]
  exact Nat.lt_succ_of_le (Nat.le_max_right _ _)

/-- Clearing bits does not raise the clock. -/
theorem mask_le (clock : UInt64) : (clock &&& MASK).toNat ≤ clock.toNat := by
  rw [UInt64.toNat_and]
  exact Nat.and_le_left

@[simp]
theorem toNat_sync (counter : UInt64) (timestamp : Timestamp) :
    (sync counter timestamp).1.toNat =
      max counter.toNat timestamp.val.toNat := by
  simp only [sync, max_def, ← UInt64.le_iff_toNat_le]
  split <;> rfl

end Timestamp

end Cdoc
