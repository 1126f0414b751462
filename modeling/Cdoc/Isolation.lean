import Cdoc.Opening

/-!
# Snapshot isolation

Every read of every run.  A snapshot keeps showing the map which was
committed when it was taken, and a writer reads the map which it has locked
with its own insertions on top, whatever is committed, flushed or abandoned
in the meantime.
-/

namespace Cdoc

open Cdoc.Foundation
open Cdoc.Sst

/-- Lookups and scans which are those of a map. -/
structure ReadsAs (get : Bytes → Checked (Option Bytes))
    (scan : Bytes → Checked (List Entry)) (map : SortedMap Bytes Bytes) :
    Prop where
  get_eq : ∀ key, get key = .ok (map.get key)
  scan_eq : ∀ stem, ∃ result, scan stem = .ok result ∧
    Increasing result ∧
    ∀ key value, (key, value) ∈ result ↔
      map.get key = some value ∧ stem <+: key

theorem mem_startingWith_map {map : SortedMap Bytes Bytes}
    {stem key value : Bytes} :
    (key, value) ∈ startingWith stem map.entries ↔
      map.get key = some value ∧ stem <+: key := by
  rw [mem_startingWith, SortedMap.get,
    map.increasing.lookup_eq_some_iff]

theorem readsAs_of_eq {get : Bytes → Checked (Option Bytes)}
    {scan : Bytes → Checked (List Entry)} {map : SortedMap Bytes Bytes}
    (get_eq : ∀ key, get key = .ok (map.get key))
    (scan_eq : ∀ stem,
      scan stem = .ok (startingWith stem map.entries)) :
    ReadsAs get scan map where
  get_eq := get_eq
  scan_eq stem := ⟨_, scan_eq stem, map.increasing.filter _,
    fun _ _ => mem_startingWith_map⟩

section Reads

variable {checksum : Checksum} {process : Process} {spec : Spec}

theorem ReadOnlyTransaction.readsAs {reader : ReadOnlyTransaction}
    {map : SortedMap Bytes Bytes}
    (shown : Shows checksum reader.snapshot map) :
    ReadsAs (reader.get checksum) reader.scan map :=
  readsAs_of_eq (ReadOnlyTransaction.get_eq shown)
    (ReadOnlyTransaction.scan_eq shown)

theorem Refines.readersReadAs (refines : Refines checksum process spec) :
    List.Forall₂
      (fun reader map => ReadsAs (reader.get checksum) reader.scan map)
      process.readers spec.readers :=
  refines.readers.imp fun _ _ shown =>
    ReadOnlyTransaction.readsAs shown

theorem Refines.writerReadsAs (refines : Refines checksum process spec)
    {tx : ReadWriteTransaction} (active : process.writer = .active tx) :
    ∃ own, spec.writer = some own ∧
      ReadsAs (tx.get checksum) tx.scan own.view := by
  rcases refines.writer_eq active with ⟨snapshot, inserts, own, forked⟩
  refine ⟨_, own, ?_⟩
  have shown := refines.shown
  rw [show process.readable = tx.snapshot from snapshot.symm] at shown
  have view := shown.insertAll forked.entries
  exact readsAs_of_eq (ReadWriteTransaction.get_eq view)
    (ReadWriteTransaction.scan_eq view)

end Reads

theorem Opened.start_refines {checksum : Checksum} {disk : Disk}
    {memtableSize : Nat} {layers : List (SortedMap Bytes Bytes)}
    {records : List WalRecord} {db : Db}
    (opened : Opened checksum disk memtableSize layers records db)
    (counter : UInt64) :
    Refines checksum (Process.start counter db)
      (Spec.start
        (SortedMap.stack (db.readable.active.entries :: layers))) where
  atEnd := by
    show db.wal.file.AtEnd
    rw [opened.wal]
    rfl
  shown := ⟨layers, opened.answers, rfl⟩
  storable := opened.storable
  readers := List.Forall₂.nil
  writer := trivial

/-- The log of a database which was opened could be replayed. -/
theorem replayed_of_openDb {checksum : Checksum}
    {memory : Nat → Nat → UInt8} {disk : Disk} {memtableSize : Nat}
    {db : Db}
    (opened : Db.openDb checksum memory disk memtableSize =
      .ok (.ok db)) :
    ∃ records, replayedRecords checksum memory disk = .ok records := by
  rcases bind_eq_ok_iff.mp opened with ⟨tables, -, opened⟩
  cases tables with
  | error failure => cases opened
  | ok sstables =>
      rcases bind_eq_ok_iff.mp opened with ⟨memtable, replayed, -⟩
      rw [replayLog_eq] at replayed
      rcases bind_eq_ok_iff.mp replayed with ⟨records, found, -⟩
      exact ⟨records, found⟩

/--
Every read in every state of every run.  The initial map is what opening has
found: the replayed log over the tables.
-/
theorem reads_of_run {checksum : Checksum} {rendering : Rendering}
    {memory : Nat → Nat → UInt8} {disk : Disk}
    {layers : List (SortedMap Bytes Bytes)} {memtableSize : Nat} {db : Db}
    {counter : UInt64} {events : List Event} {process : Process}
    (tables : TableFiles checksum disk.sstDir layers)
    (opened : Db.openDb checksum memory disk memtableSize = .ok (.ok db))
    (fits : ∀ event ∈ events, event.Fits)
    (ran : (Process.start counter db).run checksum rendering events =
      some process) :
    let spec := (Spec.start (SortedMap.stack
      (db.readable.active.entries :: layers))).run events
    List.Forall₂
      (fun reader map => ReadsAs (reader.get checksum) reader.scan map)
      process.readers spec.readers ∧
    ReadsAs (process.beginReadonly.get checksum)
      process.beginReadonly.scan spec.committed ∧
    ∀ tx, process.writer = .active tx → ∃ own, spec.writer = some own ∧
      ReadsAs (tx.get checksum) tx.scan own.view := by
  rcases replayed_of_openDb opened with ⟨records, replayed⟩
  rcases openDb_of_tableFiles tables replayed memtableSize with
    ⟨same, reopened, result⟩
  rw [opened] at reopened
  cases reopened
  have refines := run_refines (result.start_refines counter) fits ran
  exact ⟨refines.readersReadAs,
    ReadOnlyTransaction.readsAs refines.shown,
    fun tx active => refines.writerReadsAs active⟩

/-! ## A run with a flush -/

/-- `1970-01-01T00:00:00`. -/
def EPOCH : Bytes :=
  [0x31, 0x39, 0x37, 0x30, 0x2d, 0x30, 0x31, 0x2d, 0x30, 0x31, 0x54,
    0x30, 0x30, 0x3a, 0x30, 0x30, 0x3a, 0x30, 0x30]

/-- `+00:00`. -/
def UTC : Bytes :=
  [0x2b, 0x30, 0x30, 0x3a, 0x30, 0x30]

/-- The last decimal digit of a number. -/
def digit (number : Nat) : UInt8 :=
  UInt8.ofNat (0x30 + number % 10)

/-- How the timestamps of the first second are displayed. -/
def firstSecond : Rendering where
  display ts :=
    let millis := ts.val.toNat
    if millis = 0 then
      .ok (EPOCH ++ UTC)
    else if millis < 1000 then
      .ok (EPOCH ++ Directory.DOT :: digit (millis / 100) ::
        digit (millis / 10) :: digit millis :: UTC)
    else
      .error .overflow
  nonempty := by
    intro ts text shown
    dsimp only at shown
    split at shown
    · cases shown
      decide
    · split at shown
      · cases shown
        simp
      · cases shown

/-- A commit which is flushed, with readers before and after each swap. -/
def flushedCommit : List Event :=
  [.begin, .insert [1] [2] none, .beginReadonly, .writeCommit 0 none,
    .publish, .beginReadonly, .startFlush 0, .writeTmp 9, .writeTmp 1000,
    .rename, .swap, .beginReadonly, .resetLog]

theorem reads_of_run_flushedCommit :
    ∃ process, Db.openDb crc32 (fun _ _ => 0) Disk.empty 1 =
        .ok (.ok (Db.fresh 1)) ∧
      (Process.start 0 (Db.fresh 1)).run crc32 firstSecond flushedCommit =
        some process ∧
      process.readers.map (fun reader => reader.get crc32 [1]) =
        [.ok none, .ok (some [2]), .ok (some [2])] := by
  have opened := openDb_empty crc32 (fun _ _ => 0) 1
  have finished : ((Process.start 0 (Db.fresh 1)).run crc32 firstSecond
      flushedCommit).isSome = true := by
    decide +kernel
  rcases Option.isSome_iff_exists.mp finished with ⟨process, ran⟩
  refine ⟨process, opened, ran, ?_⟩
  have fits : ∀ event ∈ flushedCommit, event.Fits := by
    simp [flushedCommit, Event.Fits, Fits]
  rcases reads_of_run (tableFiles_empty crc32) opened fits ran with
    ⟨readers, -, -⟩
  have expected : ((Spec.start (SortedMap.stack
      [MemTable.new.entries])).run flushedCommit).readers.map
        (fun map => (.ok (map.get [1]) : Checked (Option Bytes))) =
      [.ok none, .ok (some [2]), .ok (some [2])] := by
    rfl
  rw [← expected, ← List.forall₂_eq_eq_eq, List.forall₂_map_left_iff,
    List.forall₂_map_right_iff]
  exact readers.imp fun reader map reads => reads.get_eq [1]

end Cdoc
