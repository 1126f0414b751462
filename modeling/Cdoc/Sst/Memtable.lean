import Cdoc.Foundation.Checked
import Cdoc.Foundation.PrefixRange
import Cdoc.Foundation.SortedMap

/-!
# The memory table

The model of `src/sst/memtable.rs`: a sorted map of the recent writes with a
running count of the bytes it holds.  The count is that of the source, with
its subtraction; a count below the length of a replaced value panics.

A scan takes a range of the map, from the prefix to its successor.
-/

namespace Cdoc.Sst

open Cdoc.Foundation

/-- A key and its value. -/
abbrev Entry := Bytes × Bytes

/-- The sorted map in memory, and the bytes which it is taken to use. -/
structure MemTable where
  entries : SortedMap Bytes Bytes
  size : Nat

namespace MemTable

/-- `MemTable::new`. -/
def new : MemTable :=
  ⟨SortedMap.empty, 0⟩

/-- The new count of bytes, and nothing when the subtraction underflows. -/
def resized (size : Nat) (key value : Bytes) : Option Bytes → Checked Nat
  | some old =>
      if old.length ≤ size then
        .ok (size - old.length + (key.length + value.length - key.length))
      else
        .error .overflow
  | none => .ok (size + (key.length + value.length))

/-- `MemTable::insert`: the value is replaced, and the size follows. -/
def insert (self : MemTable) (key value : Bytes) : Checked MemTable := do
  let size ← resized self.size key value (self.entries.get key)
  return ⟨self.entries.insert key value, size⟩

/-- `MemTable::get`. -/
def get (self : MemTable) (key : Bytes) : Option Bytes :=
  self.entries.get key

/-- `prefix_successor`, the end of the range of a prefix. -/
def prefixSuccessor := Foundation.prefixSuccessor

/-- The entries whose key starts with `stem`, as a range of the map. -/
def scan (self : MemTable) (stem : Bytes) : List Entry :=
  let upper := prefixSuccessor stem
  self.entries.entries.filter fun entry =>
    decide (¬ entry.1 < stem) &&
      match upper with
      | some upper => decide (entry.1 < upper)
      | none => true

/-- `MemTable::iter`: all entries by key. -/
def iter (self : MemTable) : List Entry :=
  self.entries.entries

/-- `MemTable::estimated_size`. -/
def estimatedSize (self : MemTable) : Nat :=
  self.size

/-! ## Scans select by prefix -/

theorem scan_eq_filter (self : MemTable) (stem : Bytes) :
    self.scan stem = startingWith stem self.entries.entries := by
  unfold scan startingWith
  refine congrArg (fun selected => self.entries.entries.filter selected)
    (funext fun entry => ?_)
  have range := prefixSuccessor_range stem entry.1
  rw [Bool.eq_iff_iff]
  simp only [Bool.and_eq_true, decide_eq_true_eq, range]
  apply and_congr_right
  intro _
  show _ ↔ ∀ upper, prefixSuccessor stem = some upper → entry.1 < upper
  cases prefixSuccessor stem with
  | none => simp
  | some upper => simp

/-! ## The count of bytes -/

/-- The bytes of all keys and values. -/
def storedBytes (entries : List Entry) : Nat :=
  (entries.map fun entry => entry.1.length + entry.2.length).sum

/-- The count is the number of bytes which the table holds. -/
def Counted (self : MemTable) : Prop :=
  self.size = storedBytes self.entries.entries

@[simp]
theorem storedBytes_cons (entry : Entry) (entries : List Entry) :
    storedBytes (entry :: entries) =
      entry.1.length + entry.2.length + storedBytes entries :=
  rfl

/-- What an insertion adds, and the length of the value it replaces. -/
theorem storedBytes_insertEntry {entries : List Entry}
    (increasing : Increasing entries) (key value : Bytes) :
    match lookup key entries with
    | some old =>
        old.length ≤ storedBytes entries ∧
          storedBytes (insertEntry key value entries) =
            storedBytes entries - old.length + value.length
    | none =>
        storedBytes (insertEntry key value entries) =
          storedBytes entries + (key.length + value.length) := by
  induction entries with
  | nil =>
      simp [storedBytes, insertEntry]
  | cons head tail induction =>
      rcases head with ⟨present, old⟩
      rcases List.pairwise_cons.mp increasing with
        ⟨below, tailIncreasing⟩
      rw [insertEntry]
      by_cases less : key < present
      · have absent : lookup key ((present, old) :: tail) = none := by
          rw [lookup_eq_none_iff]
          intro entry member
          rcases List.mem_cons.mp member with rfl | inTail
          · exact less.ne'
          · exact (less.trans (below entry inTail)).ne'
        rw [absent, if_pos less]
        simp only [storedBytes_cons]
        omega
      · rw [if_neg less, lookup_cons]
        by_cases same : key = present
        · rw [if_pos same, if_pos same.symm]
          simp only [storedBytes_cons, same]
          omega
        · rw [if_neg same, if_neg (Ne.symm same)]
          have others := induction tailIncreasing
          cases found : lookup key tail with
          | none =>
              rw [found] at others
              simp only [storedBytes_cons] at others ⊢
              omega
          | some replaced =>
              rw [found] at others
              simp only [storedBytes_cons] at others ⊢
              omega

theorem new_counted : new.Counted :=
  rfl

/-- On a table with a right count an insertion cannot underflow. -/
theorem insert_of_counted {self : MemTable} (counted : self.Counted)
    (key value : Bytes) :
    ∃ result, self.insert key value = .ok result ∧ result.Counted ∧
      result.entries = self.entries.insert key value := by
  have change :=
    storedBytes_insertEntry self.entries.increasing key value
  unfold Counted at counted
  unfold insert SortedMap.get
  cases found : lookup key self.entries.entries with
  | none =>
      rw [found] at change
      refine ⟨_, rfl, ?_, rfl⟩
      show self.size + _ = storedBytes _
      rw [counted]
      exact change.symm
  | some old =>
      rw [found] at change
      simp only [resized, counted, if_pos change.1, ok_bind, pure_eq_ok]
      refine ⟨_, rfl, ?_, rfl⟩
      show _ = storedBytes _
      rw [SortedMap.insert, change.2, Nat.add_sub_cancel_left]

theorem counted_of_insert {self result : MemTable} {key value : Bytes}
    (counted : self.Counted)
    (inserted : self.insert key value = .ok result) : result.Counted := by
  obtain ⟨other, same, otherCounted, -⟩ :=
    insert_of_counted counted key value
  rw [inserted] at same
  cases same
  exact otherCounted

/-! ## The count as a machine integer -/

/-- `insert` with a check of every operation on sizes. -/
def insertUsize (self : MemTable) (key value : Bytes) :
    Checked MemTable := do
  let added ← addUsize key.length value.length
  let entries := self.entries.insert key value
  match self.entries.get key with
  | some old =>
      -- the key was already counted
      let size ← subUsize self.size old.length
      let size ← addUsize size (← subUsize added key.length)
      return ⟨entries, size⟩
  | none =>
      let size ← addUsize self.size added
      return ⟨entries, size⟩

/-- A sequence of calls. -/
def insertEach (self : MemTable) (writes : List Entry) :
    Checked MemTable :=
  writes.foldlM (fun table write => table.insertUsize write.1 write.2) self

/-- `Clone` for the memory table. -/
def clone (self : MemTable) : MemTable :=
  ⟨self.entries, self.size⟩

/-- The tables which calls make out of new tables and their clones. -/
inductive Reachable : MemTable → Prop
  | new : Reachable new
  | clone {table : MemTable} (reachable : Reachable table) :
      Reachable table.clone
  | insert {table result : MemTable} {key value : Bytes}
      (reachable : Reachable table)
      (inserted : table.insertUsize key value = .ok result) :
      Reachable result

theorem length_le_storedBytes {entries : List Entry} {entry : Entry}
    (member : entry ∈ entries) :
    entry.1.length + entry.2.length ≤ storedBytes entries := by
  induction entries with
  | nil => cases member
  | cons head tail induction =>
      rw [storedBytes_cons]
      rcases List.mem_cons.mp member with rfl | inTail
      · omega
      · exact (induction inTail).trans (Nat.le_add_left _ _)

/-- Where no check fails, the count is that of `insert`. -/
theorem insert_of_insertUsize {self result : MemTable} {key value : Bytes}
    (inserted : self.insertUsize key value = .ok result) :
    self.insert key value = .ok result := by
  unfold insertUsize addUsize subUsize at inserted
  unfold insert
  split at inserted
  · rw [ok_bind] at inserted
    cases found : self.entries.get key with
    | none =>
        rw [found] at inserted
        dsimp only at inserted
        split at inserted
        · exact inserted
        · cases inserted
    | some old =>
        rw [found] at inserted
        dsimp only at inserted
        rw [resized]
        split at inserted
        · rename_i enough
          rw [ok_bind, if_pos (Nat.le_add_right _ _), ok_bind] at inserted
          rw [if_pos enough]
          split at inserted
          · exact inserted
          · cases inserted
        · cases inserted
  · cases inserted

/-- When the new entries fit, so does every number on the way. -/
theorem insertUsize_eq_insert {self : MemTable} (counted : self.Counted)
    {key value : Bytes} (fits : storedBytes
      (self.entries.insert key value).entries < 2 ^ 64) :
    self.insertUsize key value = self.insert key value := by
  have change :=
    storedBytes_insertEntry self.entries.increasing key value
  change storedBytes (insertEntry key value self.entries.entries) < _
    at fits
  unfold Counted at counted
  unfold insertUsize insert SortedMap.get addUsize subUsize resized
  cases found : lookup key self.entries.entries with
  | none =>
      rw [found] at change
      dsimp only at change
      have short : key.length + value.length < 2 ^ 64 := by omega
      have whole : self.size + (key.length + value.length) < 2 ^ 64 := by
        omega
      simp only [if_pos short, if_pos whole, ok_bind]
  | some old =>
      rw [found] at change
      dsimp only at change
      have present : key.length + old.length ≤
          storedBytes self.entries.entries :=
        length_le_storedBytes (mem_of_lookup_eq_some found)
      have short : key.length + value.length < 2 ^ 64 := by omega
      have enough : old.length ≤ self.size := by omega
      have whole : self.size - old.length +
          (key.length + value.length - key.length) < 2 ^ 64 := by
        omega
      simp only [if_pos short, if_pos enough, if_pos whole,
        if_pos (Nat.le_add_right key.length value.length), ok_bind]

theorem Reachable.counted {table : MemTable}
    (reachable : table.Reachable) : table.Counted := by
  induction reachable with
  | new => exact new_counted
  | clone _ counted => exact counted
  | insert _ inserted counted =>
      exact counted_of_insert counted (insert_of_insertUsize inserted)

/--
As long as the stored bytes fit a machine integer, calls do not overflow and
the count stays right.
-/
theorem insertEach_of_counted {self : MemTable} (counted : self.Counted)
    {writes : List Entry} (fits : ∀ taken, taken <+: writes →
      storedBytes (self.entries.insertAll taken).entries < 2 ^ 64) :
    ∃ result, self.insertEach writes = .ok result ∧ result.Counted ∧
      result.entries = self.entries.insertAll writes := by
  induction writes generalizing self with
  | nil => exact ⟨self, rfl, counted, rfl⟩
  | cons write writes induction =>
      obtain ⟨key, value⟩ := write
      obtain ⟨middle, inserted, middleCounted, entries⟩ :=
        insert_of_counted counted key value
      have fitsFirst := fits [(key, value)]
        ((List.prefix_append [(key, value)] writes))
      have same := insertUsize_eq_insert counted fitsFirst
      have fitsOthers : ∀ taken, taken <+: writes →
          storedBytes (middle.entries.insertAll taken).entries <
            2 ^ 64 := by
        intro taken before
        rw [entries]
        exact fits ((key, value) :: taken)
          (List.cons_prefix_cons.mpr ⟨rfl, before⟩)
      obtain ⟨result, done, resultCounted, all⟩ :=
        induction middleCounted fitsOthers
      refine ⟨result, ?_, resultCounted, ?_⟩
      · rw [insertEach, List.foldlM_cons, same, inserted]
        exact done
      · rw [all, entries]
        rfl

end MemTable

end Cdoc.Sst
