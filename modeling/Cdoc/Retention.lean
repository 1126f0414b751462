import Cdoc.Accounting
import Cdoc.Completion
import Cdoc.Limits

/-!
# What the threshold bounds

A commit flushes when the bytes which the memory table stores have reached
the threshold.  In a process whose flushes succeed the table therefore stays
below it between commits, whatever it was when the directory was opened.

The log is only reset by a flush.  Replaced values no longer count for the
threshold, but their records are still in the log: transactions which replace
each other's values lengthen it without ever causing a flush.
-/

namespace Cdoc

open Cdoc.Foundation
open Cdoc.Sst
open Cdoc.Sst.MemTable (storedBytes)

/-! ## The memory table -/

/-- The memory table is not flushed yet, or not known to stay. -/
def Writer.Unflushed : Writer → Prop
  | .published _ | .flushing .. | .renamed .. => True
  | _ => False

variable {checksum : Checksum} {rendering : Rendering}

namespace Process

variable {self next : Process} {memtableSize : Nat}

/-- The memory table is below the threshold, or a commit deals with it. -/
structure Bounded (process : Process) : Prop where
  published : ∀ tx, process.writer = .published tx →
    process.readable.active = tx.fork
  small : ¬ process.writer.Unflushed →
    storedBytes process.readable.active.iter < max 1 process.memtableSize

end Process

/-- A transaction which inserts the entries and commits without a flush. -/
def transaction (clock : UInt64) (entries : List Entry) : List Event :=
  .begin :: entries.map (fun entry => .insert entry.1 entry.2 none) ++
    [.writeCommit clock none, .publish, .finish]

/-- What such a transaction adds to the log. -/
def recordBytes (entries : List Entry) : Nat :=
  (entries.map fun entry => 8 + entry.1.length + entry.2.length).sum + 16

/-- Nothing has been flushed, and the log has the given length. -/
structure Process.Amassed (memtableSize : Nat)
    (stored : SortedMap Bytes Bytes) (length ceiling : Nat)
    (process : Process) : Prop where
  accounted : process.Accounted memtableSize
  idle : process.writer = .idle
  tables : process.readable.sstables = []
  entries : process.readable.active.entries = stored
  log : process.wal.file.contents.length = length
  counter : process.counter.toNat ≤ ceiling

namespace Process

variable {self : Process} {memtableSize length ceiling : Nat}
variable {stored : SortedMap Bytes Bytes}

/-- By induction on the entries: the log gets a record for each of them. -/
theorem run_insertEntries {tx : ReadWriteTransaction}
    (active : self.writer = .active tx) (atEnd : self.wal.file.AtEnd)
    (counted : tx.fork.Counted) (entries : List Entry) :
    ∃ wal fork,
      self.run checksum rendering
          (entries.map fun entry => .insert entry.1 entry.2 none) =
        some { self with wal, writer := .active { tx with fork } } ∧
      wal.file.AtEnd ∧ fork.Counted ∧
      fork.entries = tx.fork.entries.insertAll entries ∧
      wal.file.contents.length + 16 =
        self.wal.file.contents.length + recordBytes entries := by
  induction entries generalizing self tx with
  | nil =>
      refine ⟨self.wal, tx.fork, ?_, atEnd, counted, rfl, rfl⟩
      rw [List.map_nil, ← active]
      rfl
  | cons entry entries induction =>
      obtain ⟨key, value⟩ := entry
      obtain ⟨fork, grown, forkCounted, forkEntries⟩ :=
        MemTable.insert_of_counted counted key value
      have stepped := @insert_of_sound checksum self tx active atEnd key
        value fork grown
      obtain ⟨wal, last, ran, lastAtEnd, lastCounted, lastEntries, size⟩ :=
        @induction { self with
          wal := self.wal.appendRecord checksum (updateRecord (key, value))
          writer := .active { tx with fork } } { tx with fork } rfl
          (atEnd.appended _ _) forkCounted
      refine ⟨wal, last, ?_, lastAtEnd, lastCounted, ?_, ?_⟩
      · exact run_cons_eq_some_iff.mpr ⟨_, stepped, ran⟩
      · rw [lastEntries, forkEntries]
        rfl
      · have record := length_updateRecord checksum self.wal.rollingCrc
          (key, value)
        simp only [WriteAheadLog.appendRecord, File.appended,
          List.length_append, record, recordBytes, List.map_cons,
          List.sum_cons] at size ⊢
        omega

/-- A transaction which leaves few bytes stored is not flushed. -/
theorem Amassed.transaction
    (amassed : self.Amassed memtableSize stored length ceiling)
    {entries : List Entry}
    (small : storedBytes (stored.insertAll entries).entries < memtableSize)
    {clock : UInt64} (reading : clock.toNat ≤ ceiling)
    (fits : ceiling + 1 < 2 ^ 64) :
    ∃ next, self.run checksum rendering (transaction clock entries) =
        some next ∧
      next.Amassed memtableSize (stored.insertAll entries)
        (length + recordBytes entries) (ceiling + 1) := by
  obtain ⟨accounted, idle, tables, kept, log, counter⟩ := amassed
  obtain ⟨ts, time, later⟩ :=
    Timestamp.exists_now_le counter reading fits
  let begun : Process := { self with writer := .active self.begin }
  obtain ⟨wal, fork, inserting, atEnd, counted, forkEntries, size⟩ :=
    @run_insertEntries checksum rendering begun self.begin rfl
      accounted.atEnd accounted.active entries
  let tx : ReadWriteTransaction := { self.begin with fork }
  let inserted : Process := { begun with wal, writer := .active tx }
  let logged : Process := { inserted with
    wal := wal.appendRecord checksum (commitRecord ts)
    counter := ts.val
    writer := .logged tx }
  let published : Process := { logged with
    readable := tx.published
    writer := .published tx }
  have contents : fork.entries = stored.insertAll entries := by
    rw [forkEntries, ← kept]
    rfl
  have beginning : self.step checksum rendering .begin = some begun := by
    rw [step, idle]
  have committing : inserted.step checksum rendering
      (.writeCommit clock none) = some logged :=
    @writeCommit_of_sound checksum inserted tx rfl atEnd clock ts time
  have finishing : published.step checksum rendering .finish =
      some { published with writer := .idle } := by
    refine if_neg ?_
    show ¬ self.memtableSize ≤ fork.size
    rw [show fork.size = storedBytes fork.entries.entries from counted,
      contents, accounted.threshold]
    exact Nat.not_le.mpr small
  have ends : inserted.run checksum rendering
      [.writeCommit clock none, .publish, .finish] =
      some { published with writer := .idle } := by
    have publishing : logged.step checksum rendering .publish =
        some published := rfl
    exact run_append (run_of_step committing)
      (run_append (run_of_step publishing) (run_of_step finishing))
  refine ⟨{ published with writer := .idle }, ?_, ?_⟩
  · have begins : self.run checksum rendering (.begin :: entries.map
        fun entry => .insert entry.1 entry.2 none) = some inserted :=
      run_cons_eq_some_iff.mpr ⟨begun, beginning, inserting⟩
    exact run_append begins ends
  · have record := length_commitRecord checksum wal.rollingCrc ts
    exact {
      accounted := ⟨atEnd.appended _ _, accounted.threshold, counted,
        trivial⟩
      idle := rfl
      tables := tables
      entries := contents
      log := by
        show (wal.appendRecord checksum
          (commitRecord ts)).file.contents.length = _
        simp only [WriteAheadLog.appendRecord, File.appended,
          List.length_append, record, size]
        show self.wal.file.contents.length + _ = _
        rw [log]
      counter := later }

end Process

end Cdoc
