import Mathlib.Data.List.Infix
import Cdoc.Isolation

/-!
# The count of bytes and the threshold

A commit compares the count of the fork with the threshold of the database.
Every memory table of a process comes from an empty one by insertions: the
replay of the log, the insertions of the transactions and the copies which
the forks are.  So its count is the number of bytes which it stores, and a
commit flushes when these reach the threshold.
-/

namespace Cdoc

open Cdoc.Foundation
open Cdoc.Sst
open Cdoc.Sst.MemTable (storedBytes)

/-- The fork of the transaction which holds the lock has a right count. -/
def Writer.Counted : Writer → Prop
  | .idle => True
  | .active tx | .logged tx | .published tx | .flushing tx _ _ _
  | .renamed tx _ | .swapped tx => tx.fork.Counted

/-- All memory tables have right counts, and the threshold is as given. -/
structure Process.Accounted (memtableSize : Nat) (process : Process) :
    Prop where
  atEnd : process.wal.file.AtEnd
  threshold : process.memtableSize = memtableSize
  active : process.readable.active.Counted
  writer : process.writer.Counted

/-! ## Opening -/

theorem counted_of_replayRecords {records : List WalRecord}
    {memtable result : MemTable} (counted : memtable.Counted)
    (replayed : records.foldlM Db.replayRecord memtable = .ok result) :
    result.Counted := by
  induction records generalizing memtable with
  | nil =>
      cases replayed
      exact counted
  | cons record records induction =>
      rw [List.foldlM_cons] at replayed
      obtain ⟨middle, first, others⟩ := bind_eq_ok_iff.mp replayed
      refine induction ?_ others
      unfold Db.replayRecord at first
      split at first
      · exact MemTable.counted_of_insert counted first
      · cases first
        exact counted

variable {checksum : Checksum} {rendering : Rendering}

theorem counted_of_replayLog {memory : Nat → Nat → UInt8}
    {wal : Option Bytes} {memtable : MemTable}
    (replayed : Db.replayLog checksum memory wal = .ok memtable) :
    memtable.Counted := by
  cases wal with
  | none =>
      cases replayed
      exact MemTable.new_counted
  | some contents =>
      obtain ⟨records, -, inserted⟩ := bind_eq_ok_iff.mp replayed
      exact counted_of_replayRecords MemTable.new_counted inserted

/-- Whatever the disk holds. -/
theorem start_accounted {memory : Nat → Nat → UInt8} {disk : Disk}
    {memtableSize : Nat} {db : Db} (counter : UInt64)
    (opened : Db.openDb checksum memory disk memtableSize =
      .ok (.ok db)) :
    (Process.start counter db).Accounted memtableSize := by
  obtain ⟨tables, -, opened⟩ := bind_eq_ok_iff.mp opened
  cases tables with
  | error failure => cases opened
  | ok sstables =>
      obtain ⟨memtable, replayed, opened⟩ := bind_eq_ok_iff.mp opened
      cases opened
      exact ⟨rfl, rfl, counted_of_replayLog replayed, trivial⟩

/-! ## Events -/

namespace Process

variable {self next : Process} {memtableSize : Nat}

theorem Accounted.writer_eq (accounted : self.Accounted memtableSize)
    {writer : Writer} (named : self.writer = writer) : writer.Counted :=
  named ▸ accounted.writer

/-- The lock is released. -/
theorem Accounted.release (accounted : self.Accounted memtableSize)
    {wal : WriteAheadLog} (atEnd : wal.file.AtEnd) (counter : UInt64) :
    Accounted memtableSize { self with wal, counter, writer := .idle } :=
  ⟨atEnd, accounted.threshold, accounted.active, trivial⟩

theorem insert_accounted (accounted : self.Accounted memtableSize)
    {key value : Bytes} {fault : Option Nat}
    (stepped : self.insert checksum key value fault = some next) :
    next.Accounted memtableSize := by
  obtain ⟨tx, active, result⟩ := insert_cases accounted.atEnd stepped
  split at result
  · obtain ⟨fork, inserted, rfl⟩ := result
    exact ⟨accounted.atEnd.appended _ _, accounted.threshold,
      accounted.active, MemTable.counted_of_insert
        (accounted.writer_eq active) inserted⟩
  · obtain ⟨wal, torn, rfl⟩ := result
    exact ⟨torn.atEnd, accounted.threshold, accounted.active,
      accounted.writer⟩

theorem abort_accounted (accounted : self.Accounted memtableSize)
    (stepped : self.abort = some next) : next.Accounted memtableSize := by
  obtain ⟨-, wal, truncated, rfl⟩ := abort_cases stepped
  exact accounted.release (WriteAheadLog.atEnd_of_truncate truncated)
    self.counter

theorem writeCommit_accounted (accounted : self.Accounted memtableSize)
    {clock : UInt64} {fault : Option Nat}
    (stepped : self.writeCommit checksum clock fault = some next) :
    next.Accounted memtableSize := by
  obtain ⟨tx, ts, active, -, result⟩ :=
    writeCommit_cases accounted.atEnd stepped
  have counted : tx.fork.Counted := accounted.writer_eq active
  split at result
  · subst result
    exact ⟨accounted.atEnd.appended _ _, accounted.threshold,
      accounted.active, counted⟩
  · obtain ⟨wal, torn, rfl⟩ := result
    exact accounted.release torn.atEnd ts.val

theorem step_accounted (accounted : self.Accounted memtableSize)
    {event : Event}
    (stepped : self.step checksum rendering event = some next) :
    next.Accounted memtableSize := by
  obtain ⟨atEnd, threshold, active, writer⟩ := id accounted
  cases event with
  | beginReadonly =>
      cases stepped
      exact ⟨atEnd, threshold, active, writer⟩
  | begin =>
      simp only [step] at stepped
      split at stepped
      · cases stepped
        exact ⟨atEnd, threshold, active, active⟩
      · cases stepped
  | insert key value fault => exact insert_accounted accounted stepped
  | abort => exact abort_accounted accounted stepped
  | drop => exact abort_accounted accounted stepped
  | writeCommit clock fault => exact writeCommit_accounted accounted stepped
  | publish =>
      obtain ⟨tx, logged, rfl⟩ := publish_cases stepped
      have counted : tx.fork.Counted := accounted.writer_eq logged
      exact ⟨atEnd, threshold, counted, counted⟩
  | finish =>
      obtain ⟨tx, -, rfl⟩ := finish_cases stepped
      exact accounted.release atEnd self.counter
  | startFlush clock =>
      obtain ⟨tx, ts, name, bytes, published, -, -, -, rfl⟩ :=
        startFlush_cases stepped
      have counted : tx.fork.Counted := accounted.writer_eq published
      exact ⟨atEnd, threshold, active, counted⟩
  | writeTmp count =>
      obtain ⟨tx, name, written, remaining, flushing, rfl⟩ :=
        writeTmp_cases stepped
      have counted : tx.fork.Counted := accounted.writer_eq flushing
      exact ⟨atEnd, threshold, active, counted⟩
  | rename =>
      obtain ⟨tx, name, written, contents, flushing, -, rfl⟩ :=
        rename_cases stepped
      have counted : tx.fork.Counted := accounted.writer_eq flushing
      exact ⟨atEnd, threshold, active, counted⟩
  | swap =>
      obtain ⟨tx, name, contents, reader, renamed, -, -, rfl⟩ :=
        swap_cases stepped
      have counted : tx.fork.Counted := accounted.writer_eq renamed
      exact ⟨atEnd, threshold, MemTable.new_counted, counted⟩
  | resetLog =>
      obtain ⟨tx, -, rfl⟩ := resetLog_cases stepped
      have fresh : (WriteAheadLog.create.withFault
          self.wal.file.fault).file.AtEnd := rfl
      exact accounted.release fresh self.counter
  | fail =>
      obtain ⟨-, rfl⟩ := fail_cases stepped
      exact accounted.release atEnd self.counter

theorem run_accounted {events : List Event}
    (accounted : self.Accounted memtableSize)
    (ran : self.run checksum rendering events = some next) :
    next.Accounted memtableSize :=
  @run_beside Process Unit Event _ (fun beside _ => beside)
    (fun process _ => process.Accounted memtableSize) (fun _ => True)
    (fun _ _ _ _ accounted _ stepped => step_accounted accounted stepped)
    self next () events accounted (fun _ _ => trivial) ran

section Threshold

variable {tx : ReadWriteTransaction}

theorem Accounted.estimatedSize_eq (accounted : self.Accounted memtableSize)
    (published : self.writer = .published tx) :
    tx.fork.estimatedSize = storedBytes tx.fork.iter :=
  accounted.writer_eq published

/-- A commit ends without a flush below the threshold. -/
theorem Accounted.finish_iff (accounted : self.Accounted memtableSize)
    (published : self.writer = .published tx) :
    self.finish = some { self with writer := .idle } ↔
      storedBytes tx.fork.iter < memtableSize := by
  simp only [finish, published, accounted.estimatedSize_eq published,
    accounted.threshold]
  split
  · rename_i reached
    refine iff_of_false ?_ (Nat.not_lt.mpr reached)
    intro finished
    cases finished
  · rename_i small
    exact iff_of_true rfl (Nat.not_le.mp small)

theorem Accounted.le_of_startFlush (accounted : self.Accounted memtableSize)
    (published : self.writer = .published tx) {clock : UInt64}
    (stepped : self.startFlush checksum rendering clock = some next) :
    memtableSize ≤ storedBytes tx.fork.iter := by
  simp only [startFlush, published, accounted.estimatedSize_eq published,
    accounted.threshold] at stepped
  split at stepped
  · assumption
  · cases stepped

end Threshold

end Process

/--
The count of a memory table is exact.  Calls on a new table and on copies of
reachable tables neither underflow nor overflow while the stored bytes fit a
machine integer, and the count is their number.  The transactions of every
run of a database see this count: it is the same insertion, and a commit
compares the stored bytes with the threshold.
-/
theorem accounting_exact :
    (∀ (start : MemTable) (writes : List Entry), start.Reachable →
      (∀ taken, taken <+: writes →
        storedBytes (start.entries.insertAll taken).entries < 2 ^ 64) →
      ∃ result, start.clone.insertEach writes = .ok result ∧
        result.entries = start.entries.insertAll writes ∧
        result.estimatedSize = storedBytes result.iter) ∧
    ∀ (checksum : Checksum) (rendering : Rendering)
      (memory : Nat → Nat → UInt8) (disk : Disk) (memtableSize : Nat)
      (db : Db) (counter : UInt64) (events : List Event)
      (process : Process),
      Db.openDb checksum memory disk memtableSize = .ok (.ok db) →
      (Process.start counter db).run checksum rendering events =
        some process →
      (∀ tx key value, process.writer = .active tx →
        storedBytes (tx.fork.entries.insert key value).entries < 2 ^ 64 →
        tx.fork.insertUsize key value = tx.fork.insert key value) ∧
      ∀ tx, process.writer = .published tx →
        tx.fork.estimatedSize = storedBytes tx.fork.iter ∧
        (process.finish = some { process with writer := .idle } ↔
          storedBytes tx.fork.iter < memtableSize) ∧
        ∀ clock next,
          process.startFlush checksum rendering clock = some next →
            memtableSize ≤ storedBytes tx.fork.iter := by
  constructor
  · intro start writes reachable fits
    obtain ⟨result, done, counted, entries⟩ :=
      MemTable.insertEach_of_counted reachable.clone.counted fits
    exact ⟨result, done, entries, counted⟩
  · intro checksum rendering memory disk memtableSize db counter events
      process opened ran
    have accounted := Process.run_accounted (start_accounted counter opened)
      ran
    constructor
    · intro tx key value active fits
      exact MemTable.insertUsize_eq_insert (accounted.writer_eq active) fits
    · intro tx published
      exact ⟨accounted.estimatedSize_eq published,
        accounted.finish_iff published,
        fun clock next => accounted.le_of_startFlush published⟩

/-- A commit of three bytes, as far as it is published. -/
def publishedCommit : List Event :=
  [.begin, .insert [1] [2, 3] none, .writeCommit 0 none] ++ [.publish]

/-- A value which grows and one which shrinks; a commit which finishes. -/
theorem accounting_exact_overwrites :
    (∃ result, MemTable.new.clone.insertEach
        [([1], [2]), ([3], [4, 5]), ([1], [6, 7, 8]), ([3], [])] =
          .ok result ∧
      result.entries = MemTable.new.entries.insertAll
        [([1], [2]), ([3], [4, 5]), ([1], [6, 7, 8]), ([3], [])] ∧
      result.estimatedSize = storedBytes result.iter) ∧
    ∃ process tx, (Process.start 0 (Db.fresh 4)).run crc32 firstSecond
        publishedCommit = some process ∧
      process.writer = .published tx ∧
      tx.fork.estimatedSize = storedBytes tx.fork.iter ∧
      storedBytes tx.fork.iter < 4 := by
  constructor
  · refine accounting_exact.1 MemTable.new _ .new ?_
    intro taken before
    have bounded : ∀ taken ∈ List.inits
        [([1], [2]), ([3], [4, 5]), ([1], [6, 7, 8]), ([3], [])],
        storedBytes (MemTable.new.entries.insertAll taken).entries <
          2 ^ 64 := by
      decide +kernel
    exact bounded taken ((List.mem_inits _ _).mpr before)
  · have finishes : (((Process.start 0 (Db.fresh 4)).run crc32 firstSecond
        publishedCommit).any fun process => process.finish.isSome) =
          true := by
      decide +kernel
    obtain ⟨process, ran, finishes⟩ := (Option.any_eq_true _ _).mp finishes
    obtain ⟨next, finished⟩ := Option.isSome_iff_exists.mp finishes
    obtain ⟨tx, published, rfl⟩ := Process.finish_cases finished
    obtain ⟨-, counts⟩ := accounting_exact.2 crc32 firstSecond
      (fun _ _ => 0) Disk.empty 4 (Db.fresh 4) 0 publishedCommit process
      (openDb_empty crc32 (fun _ _ => 0) 4) ran
    obtain ⟨exactly, finishing, -⟩ := counts tx published
    exact ⟨process, tx, ran, published, exactly, finishing.mp finished⟩

end Cdoc
