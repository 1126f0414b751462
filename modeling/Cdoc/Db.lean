import Cdoc.Foundation.Directory
import Cdoc.Transaction

/-!
# The database

The model of `src/db.rs` and of the steps of `commit`.  On disk there are a
directory of tables and a log.  Opening removes unfinished tables, opens the
others from the newest name to the oldest, replays the log into a memory
table and truncates it.

A process with an open database performs events.  Everything which other
threads can observe and everything which reaches a file is an event of its
own, so `commit` is a sequence of them: the commit record, the first swap of
the readable state and, when the memory table has grown, the creation, the
writing and the renaming of a table, the second swap and the reset of the
log.  The lock of the writer is held from `begin` to the last of them.
-/

namespace Cdoc

open Cdoc.Foundation
open Cdoc.Sst

/-! ## Files -/

/-- The extension of a table. -/
def SST : Bytes := [0x73, 0x73, 0x74]

/-- The extension of a table which is being written. -/
def TMP : Bytes := [0x74, 0x6d, 0x70]

/-- How timestamps are displayed, which is left to another crate. -/
structure Rendering where
  display : Timestamp → Checked Bytes
  nonempty : ∀ ts text, display ts = .ok text → text ≠ []

/-- `format!("{}.sst", ts)`. -/
def Rendering.fileName (rendering : Rendering) (ts : Timestamp) :
    Checked Bytes := do
  return (← rendering.display ts) ++ Directory.DOT :: SST

/-- `format!("{}.sst.tmp", ts)` from the name of the table. -/
def tmpName (name : Bytes) : Bytes :=
  name ++ Directory.DOT :: TMP

/-- What is left when no process runs. -/
structure Disk where
  sstDir : Directory
  wal : Option Bytes

/-- A directory in which no database has been opened. -/
def Disk.empty : Disk :=
  ⟨SortedMap.empty, none⟩

/-! ## Opening -/

/-- The state of an open database with what it has on disk. -/
structure Db where
  readable : ReadableState
  wal : WriteAheadLog
  sstDir : Directory
  memtableSize : Nat

namespace Db

/-- The loop which opens the tables. -/
def openTables : List (Bytes × Bytes) →
    Checked (Except SstError (List SSTableReader))
  | [] => .ok (.ok [])
  | (_, contents) :: files => do
      match ← SSTableReader.openTable contents with
      | .error failure => return .error failure
      | .ok reader =>
          match ← openTables files with
          | .error failure => return .error failure
          | .ok readers => return .ok (reader :: readers)

/-- A replayed record; those without a key only commit. -/
def replayRecord (memtable : MemTable) (record : WalRecord) :
    Checked MemTable :=
  if !record.key.isEmpty then
    memtable.insert record.key record.value
  else
    .ok memtable

/-- The memory table which the log gives. -/
def replayLog (checksum : Checksum) (memory : Nat → Nat → UInt8)
    (wal : Option Bytes) : Checked MemTable :=
  match wal with
  | some contents => do
      let records ← WriteAheadLog.replay checksum memory contents
      records.foldlM replayRecord MemTable.new
  | none => .ok MemTable.new

/--
`Db::open`: the tables are opened, the log is replayed on top of them and then
created anew.
-/
def openDb (checksum : Checksum) (memory : Nat → Nat → UInt8)
    (disk : Disk) (memtableSize : Nat) : Checked (Except SstError Db) := do
  let sstDir := disk.sstDir.select
    (fun name => decide (Directory.extension name ≠ some TMP))
  -- sorted by name and reversed: the newest table first
  match ← openTables (Directory.filesWith SST sstDir).reverse with
  | .error failure => return .error failure
  | .ok sstables =>
      let memtable ← replayLog checksum memory disk.wal
      return .ok {
        readable := ⟨memtable, sstables⟩
        wal := WriteAheadLog.create
        sstDir
        memtableSize }

/-- `Db::begin_readonly`: a reader holds the state it starts from. -/
def beginReadonly (self : Db) : ReadOnlyTransaction :=
  ⟨self.readable⟩

/-- `Db::begin`, once the lock of the writer is taken. -/
def begin (self : Db) : ReadWriteTransaction :=
  ReadWriteTransaction.new self.readable

/-- What the files hold when the process stops. -/
def disk (self : Db) : Disk :=
  ⟨self.sstDir, some self.wal.file.contents⟩

end Db

/-! ## Processes -/

/-- How far the transaction which holds the lock has come. -/
inductive Writer where
  | idle
  | active (tx : ReadWriteTransaction)
  /-- The commit record is written. -/
  | logged (tx : ReadWriteTransaction)
  /-- The fork is the memory table. -/
  | published (tx : ReadWriteTransaction)
  /-- A part of the new table is written. -/
  | flushing (tx : ReadWriteTransaction) (name written remaining : Bytes)
  | renamed (tx : ReadWriteTransaction) (name : Bytes)
  /-- The new table is in use. -/
  | swapped (tx : ReadWriteTransaction)

/-- A process: `counter` is the static variable behind `Timestamp::now`. -/
structure Process extends Db where
  counter : UInt64
  writer : Writer
  readers : List ReadOnlyTransaction

/--
An event.  A fault is the number of bytes which the device of the log
accepts before it fails; a clock reading is what the system clock returns.
-/
inductive Event where
  | beginReadonly
  | begin
  | insert (key value : Bytes) (fault : Option Nat)
  | abort
  | drop
  | writeCommit (clock : UInt64) (fault : Option Nat)
  | publish
  | finish
  | startFlush (clock : UInt64)
  | writeTmp (count : Nat)
  | rename
  | swap
  | resetLog
  /-- An error or a panic ends a flush. -/
  | fail
deriving DecidableEq, Repr

namespace Process

variable (checksum : Checksum) (rendering : Rendering)

/-- A process which has just opened its database. -/
def start (counter : UInt64) (db : Db) : Process :=
  { db with counter, writer := .idle, readers := [] }

/-- `ReadWriteTransaction::insert` on a device which may fail in its record. -/
def insert (self : Process) (key value : Bytes) (fault : Option Nat) :
    Option Process :=
  match self.writer with
  | .active tx =>
      match tx.insert checksum key value (self.wal.withFault fault) with
      | .ok (.ok tx) wal =>
          some { self with wal := wal.withFault none, writer := .active tx }
      | .ok (.error _) _ => none
      | .error _ wal => some { self with wal := wal.withFault none }
  | _ => none

/-- `abort`, and `drop` of a transaction which is not finished. -/
def abort (self : Process) : Option Process :=
  match self.writer with
  | .active _ =>
      match WriteAheadLog.truncateToLastCommit self.wal with
      | .ok _ wal | .error _ wal => some { self with wal, writer := .idle }
  | _ => none

/-- The first lines of `commit`; when they fail the log is left as it is. -/
def writeCommit (self : Process) (clock : UInt64) (fault : Option Nat) :
    Option Process :=
  match self.writer with
  | .active tx =>
      match Timestamp.now self.counter clock with
      | .error _ => none
      | .ok ts =>
          match WriteAheadLog.writeCommit checksum ts
              (self.wal.withFault fault) with
          | .ok _ wal =>
              some { self with
                wal := wal.withFault none
                counter := ts.val
                writer := .logged tx }
          | .error _ wal =>
              some { self with
                wal := wal.withFault none
                counter := ts.val
                writer := .idle }
  | _ => none

/-- The commit stores the new state for the transactions to come. -/
def publish (self : Process) : Option Process :=
  match self.writer with
  | .logged tx =>
      some { self with readable := tx.published, writer := .published tx }
  | _ => none

/-- The memory table stays below the threshold. -/
def finish (self : Process) : Option Process :=
  match self.writer with
  | .published tx =>
      if self.memtableSize ≤ tx.fork.estimatedSize then none
      else some { self with writer := .idle }
  | _ => none

/-- `flush_memtable` up to the creation of the file. -/
def startFlush (self : Process) (clock : UInt64) : Option Process :=
  match self.writer with
  | .published tx =>
      if self.memtableSize ≤ tx.fork.estimatedSize then
        match Timestamp.now self.counter clock with
        | .error _ => none
        | .ok ts =>
            match rendering.fileName ts,
                writeTable checksum ts ts tx.fork.iter with
            | .ok name, .ok bytes =>
                some { self with
                  counter := ts.val
                  sstDir := self.sstDir.insert (tmpName name) []
                  writer := .flushing tx name [] bytes }
            | _, _ => none
      else none
  | _ => none

/-- The next bytes of the table reach the file. -/
def writeTmp (self : Process) (count : Nat) : Option Process :=
  match self.writer with
  | .flushing tx name written remaining =>
      let written := written ++ remaining.take count
      some { self with
        sstDir := self.sstDir.insert (tmpName name) written
        writer := .flushing tx name written (remaining.drop count) }
  | _ => none

/-- The temporary file gets the name of a table. -/
def rename (self : Process) : Option Process :=
  match self.writer with
  | .flushing tx name _ [] => do
      let sstDir ← Directory.rename self.sstDir (tmpName name) name
      return { self with sstDir, writer := .renamed tx name }
  | _ => none

/-- The table is opened, and replaces the memory table it was written from. -/
def swap (self : Process) : Option Process :=
  match self.writer with
  | .renamed tx name => do
      let contents ← self.sstDir.get name
      match SSTableReader.openTable contents with
      | .ok (.ok reader) =>
          return { self with
            readable := tx.flushed reader
            writer := .swapped tx }
      | _ => none
  | _ => none

/-- The log is reset, and the lock of the writer is released. -/
def resetLog (self : Process) : Option Process :=
  match self.writer with
  | .swapped _ =>
      match WriteAheadLog.reset self.wal with
      | .ok _ wal | .error _ wal => some { self with wal, writer := .idle }
  | _ => none

/-- The lock is released and nothing is undone. -/
def fail (self : Process) : Option Process :=
  match self.writer with
  | .published _ | .flushing .. | .renamed .. =>
      some { self with writer := .idle }
  | _ => none

/-- The process after an event, if the event is possible. -/
def step (self : Process) : Event → Option Process
  | .beginReadonly =>
      some { self with readers := self.readers ++ [self.beginReadonly] }
  | .begin =>
      match self.writer with
      | .idle => some { self with writer := .active self.begin }
      | _ => none
  | .insert key value fault => self.insert checksum key value fault
  | .abort => self.abort
  | .drop => self.abort
  | .writeCommit clock fault => self.writeCommit checksum clock fault
  | .publish => self.publish
  | .finish => self.finish
  | .startFlush clock => self.startFlush checksum rendering clock
  | .writeTmp count => self.writeTmp count
  | .rename => self.rename
  | .swap => self.swap
  | .resetLog => self.resetLog
  | .fail => self.fail

/-- The process after a list of events, if each of them is possible. -/
def run (self : Process) (events : List Event) : Option Process :=
  events.foldlM (step checksum rendering) self

end Process

end Cdoc
