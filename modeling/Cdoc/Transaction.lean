import Cdoc.Sst.Memtable
import Cdoc.Sst.Read
import Cdoc.Wal

/-!
# Transactions

The model of `src/transaction.rs`.  A readable state is never changed, only
replaced, so a transaction keeps the one it has loaded.  The lock of the
writer and the flag which tells a finished transaction from an abandoned one
are part of the process which runs the transactions.
-/

namespace Cdoc

open Cdoc.Foundation
open Cdoc.Sst

/-- State visible to all readers (swapped atomically). -/
structure ReadableState where
  active : MemTable
  sstables : List SSTableReader

/-- The loop of both `get` functions over the tables, newest first. -/
def getFromTables (checksum : Checksum) (key : Bytes) :
    List SSTableReader → Checked (Option Bytes)
  | [] => .ok none
  | sst :: rest => do
      match ← sst.get checksum key with
      | some value => return some value
      | none => getFromTables checksum key rest

/-- A table's entries are inserted over those of the older tables. -/
def mergeTable (stem : Bytes) (merged : SortedMap Bytes Bytes)
    (sst : SSTableReader) : Checked (SortedMap Bytes Bytes) := do
  return merged.insertAll (← sst.scanPrefix stem)

/-- `merge_scan`: the entries of all layers, the newest of each key. -/
def mergeScan (stem : Bytes) (memtable : MemTable)
    (sstables : List SSTableReader) : Checked (List Entry) := do
  -- tables from oldest to newest so that newer entries overwrite older ones
  let merged ← sstables.reverse.foldlM (mergeTable stem) SortedMap.empty
  return (merged.insertAll (memtable.scan stem)).entries

/-! ## Readers -/

/-- A reader, which holds the state it was started in. -/
structure ReadOnlyTransaction where
  snapshot : ReadableState

namespace ReadOnlyTransaction

/-- `ReadOnlyTransaction::get`: the memory table first, then the tables. -/
def get (checksum : Checksum) (self : ReadOnlyTransaction)
    (key : Bytes) : Checked (Option Bytes) :=
  match self.snapshot.active.get key with
  | some value => .ok (some value)
  | none => getFromTables checksum key self.snapshot.sstables

/-- `ReadOnlyTransaction::scan`. -/
def scan (self : ReadOnlyTransaction) (stem : Bytes) :
    Checked (List Entry) :=
  mergeScan stem self.snapshot.active self.snapshot.sstables

end ReadOnlyTransaction

/-! ## Writers -/

/-- A writer, with its own copy of the memory table. -/
structure ReadWriteTransaction where
  fork : MemTable
  snapshot : ReadableState

namespace ReadWriteTransaction

/-- The fork starts as a copy of the memory table. -/
def new (readable : ReadableState) : ReadWriteTransaction :=
  ⟨readable.active, readable⟩

/-- The record goes to the log before the fork changes. -/
def insert (checksum : Checksum) (self : ReadWriteTransaction)
    (key value : Bytes) :
    Io WriteAheadLog (Checked ReadWriteTransaction) := do
  WriteAheadLog.writeRecord checksum key value none
  return do
    let fork ← self.fork.insert key value
    return { self with fork }

/-- `ReadWriteTransaction::get`: the fork first, then the tables. -/
def get (checksum : Checksum) (self : ReadWriteTransaction)
    (key : Bytes) : Checked (Option Bytes) :=
  match self.fork.get key with
  | some value => .ok (some value)
  | none => getFromTables checksum key self.snapshot.sstables

/-- `ReadWriteTransaction::scan`. -/
def scan (self : ReadWriteTransaction) (stem : Bytes) :
    Checked (List Entry) :=
  mergeScan stem self.fork self.snapshot.sstables

/-- The state which `commit` publishes first. -/
def published (self : ReadWriteTransaction) : ReadableState :=
  ⟨self.fork, self.snapshot.sstables⟩

/-- The state which `commit` publishes behind a flush. -/
def flushed (self : ReadWriteTransaction) (reader : SSTableReader) :
    ReadableState :=
  ⟨MemTable.new, reader :: self.snapshot.sstables⟩

end ReadWriteTransaction

end Cdoc
