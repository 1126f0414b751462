import Cdoc.Isolation
import Cdoc.Sst.Size

/-!
# Clients

The calls of the interface as one thread makes them.  `commit` is translated
here as the single function which it is in `src/transaction.rs`, with
`flush_memtable` of `src/db.rs` inside it and every way in which they
return; its steps as other threads see them are the events of the database.

A client owns a read-write transaction or does not, and it owns readers.
What the types of the interface forbid, a call on a transaction which is not
there, has no result here.
-/

namespace Cdoc

open Cdoc.Foundation
open Cdoc.Sst

/-- Where a device fails behind the creation of the table. -/
inductive FlushFault where
  /-- The bytes which reach the file before. -/
  | write (count : Nat)
  | rename
  | reopen
deriving DecidableEq, Repr

/--
A call of the public interface, with the clock readings it makes and the
faults of the devices during it.
-/
inductive Request where
  | beginReadonly
  | getReadonly (reader : Nat) (key : Bytes)
  | scanReadonly (reader : Nat) (stem : Bytes)
  | begin
  | insert (key value : Bytes) (fault : Option Nat)
  | get (key : Bytes)
  | scan (stem : Bytes)
  | commit (clock : UInt64) (fault : Option Nat) (flushClock : UInt64)
      (flushFault : Option FlushFault)
  | abort
  | drop
deriving DecidableEq, Repr

/-- What a call returns to its client. -/
inductive Response where
  | done
  /-- The call returns an error. -/
  | failed
  | value (found : Option Bytes)
  | entries (found : List Entry)
deriving DecidableEq, Repr

namespace Process

variable (checksum : Checksum) (rendering : Rendering)

/-- `flush_memtable`; without a reader it returns an error. -/
def flushMemtable (process : Process) (memtable : MemTable)
    (clock : UInt64) (fault : Option FlushFault) :
    Checked (Process × Option SSTableReader) := do
  let ts ← Timestamp.now process.counter clock
  let finalPath ← rendering.fileName ts
  let tmpPath := tmpName finalPath
  let process := { process with
    counter := ts.val
    sstDir := process.sstDir.insert tmpPath [] }
  let bytes ← writeTable checksum ts ts memtable.iter
  match fault with
  | some (.write count) =>
      return ({ process with
        sstDir := process.sstDir.insert tmpPath (bytes.take count) }, none)
  | fault =>
      let process := { process with
        sstDir := process.sstDir.insert tmpPath bytes }
      if fault = some .rename then
        return (process, none)
      match Directory.rename process.sstDir tmpPath finalPath with
      | none => return (process, none)
      | some sstDir =>
          let process := { process with sstDir }
          if fault = some .reopen then
            return (process, none)
          match sstDir.get finalPath with
          | none => return (process, none)
          | some contents =>
              match ← SSTableReader.openTable contents with
              | .error _ => return (process, none)
              | .ok reader => return (process, some reader)

/-- `commit`, which consumes its transaction and releases the lock. -/
def commit (process : Process) (tx : ReadWriteTransaction)
    (clock : UInt64) (fault : Option Nat) (flushClock : UInt64)
    (flushFault : Option FlushFault) : Checked (Process × Response) := do
  let ts ← Timestamp.now process.counter clock
  let process := { process with counter := ts.val, writer := .idle }
  match WriteAheadLog.writeCommit checksum ts
      (process.wal.withFault fault) with
  | .error _ wal =>
      return ({ process with wal := wal.withFault none }, .failed)
  | .ok _ wal =>
      let process := { process with
        wal := wal.withFault none
        readable := tx.published }
      if process.memtableSize ≤ tx.fork.estimatedSize then
        match ← process.flushMemtable checksum rendering tx.fork flushClock
            flushFault with
        | (process, none) => return (process, .failed)
        | (process, some reader) =>
            let process := { process with readable := tx.flushed reader }
            match WriteAheadLog.reset process.wal with
            | .ok _ wal => return ({ process with wal }, .done)
            | .error _ wal => return ({ process with wal }, .failed)
      else
        return (process, .done)

/-- The transaction of a client, with what it inserts. -/
def insertInto (process : Process) (tx : ReadWriteTransaction)
    (key value : Bytes) (fault : Option Nat) :
    Checked (Process × Response) :=
  match tx.insert checksum key value (process.wal.withFault fault) with
  | .ok result wal => do
      let tx ← result
      return ({ process with
        wal := wal.withFault none
        writer := .active tx }, .done)
  | .error _ wal =>
      .ok ({ process with wal := wal.withFault none }, .failed)

/-- `abort`, and `drop`, which ignores the error. -/
def abandon (process : Process) : Process × Response :=
  match WriteAheadLog.truncateToLastCommit process.wal with
  | .ok _ wal => ({ process with wal, writer := .idle }, .done)
  | .error _ wal => ({ process with wal, writer := .idle }, .failed)

/-- A call; the outcome is a panic or what the call returns. -/
def call (process : Process) :
    Request → Option (Checked (Process × Response))
  | .beginReadonly =>
      some (.ok ({ process with
        readers := process.readers ++ [process.beginReadonly] }, .done))
  | .getReadonly reader key => do
      let tx ← process.readers[reader]?
      return do
        let found ← tx.get checksum key
        return (process, .value found)
  | .scanReadonly reader stem => do
      let tx ← process.readers[reader]?
      return do
        let found ← tx.scan stem
        return (process, .entries found)
  | .begin =>
      match process.writer with
      | .idle =>
          some (.ok ({ process with
            writer := .active process.begin }, .done))
      | _ => none
  | .insert key value fault =>
      match process.writer with
      | .active tx => some (process.insertInto checksum tx key value fault)
      | _ => none
  | .get key =>
      match process.writer with
      | .active tx => some do
          let found ← tx.get checksum key
          return (process, .value found)
      | _ => none
  | .scan stem =>
      match process.writer with
      | .active tx => some do
          let found ← tx.scan stem
          return (process, .entries found)
      | _ => none
  | .commit clock fault flushClock flushFault =>
      match process.writer with
      | .active tx =>
          some (process.commit checksum rendering tx clock fault flushClock
            flushFault)
      | _ => none
  | .abort | .drop =>
      match process.writer with
      | .active _ => some (.ok process.abandon)
      | _ => none

/-- A process which answers calls; a panic ends it. -/
def client : Machine Process Request Response where
  step process request :=
    match process.call checksum rendering request with
    | some (.ok (next, response)) => some (next, some response)
    | _ => none

end Process

/-! ## What calls are for -/

/-- What a client knows: the committed map, its own and its snapshots. -/
structure View where
  committed : SortedMap Bytes Bytes
  writer : Option (SortedMap Bytes Bytes)
  readers : List (SortedMap Bytes Bytes)

namespace View

/-- A client without transactions. -/
def start (map : SortedMap Bytes Bytes) : View :=
  ⟨map, none, []⟩

/--
The response to a request and the view behind it.  A call fails only on a
device which does, and a commit which fails in its flush is published.
-/
inductive Allows : View → Request → Response → View → Prop
  | beginReadonly {view : View} :
      Allows view .beginReadonly .done
        { view with readers := view.readers ++ [view.committed] }
  | getReadonly {view : View} {reader : Nat} {key : Bytes}
      {map : SortedMap Bytes Bytes} (held : view.readers[reader]? = some map) :
      Allows view (.getReadonly reader key) (.value (map.get key)) view
  | scanReadonly {view : View} {reader : Nat} {stem : Bytes}
      {map : SortedMap Bytes Bytes} (held : view.readers[reader]? = some map) :
      Allows view (.scanReadonly reader stem)
        (.entries (startingWith stem map.entries)) view
  | begin {view : View} (idle : view.writer = none) :
      Allows view .begin .done { view with writer := some view.committed }
  | insert {view : View} {key value : Bytes} {fault : Option Nat}
      {map : SortedMap Bytes Bytes} (own : view.writer = some map) :
      Allows view (.insert key value fault) .done
        { view with writer := some (map.insert key value) }
  | insertRefused {view : View} {key value : Bytes} {fault : Option Nat}
      (own : view.writer.isSome) (faulty : fault ≠ none) :
      Allows view (.insert key value fault) .failed view
  | get {view : View} {key : Bytes} {map : SortedMap Bytes Bytes}
      (own : view.writer = some map) :
      Allows view (.get key) (.value (map.get key)) view
  | scan {view : View} {stem : Bytes} {map : SortedMap Bytes Bytes}
      (own : view.writer = some map) :
      Allows view (.scan stem)
        (.entries (startingWith stem map.entries)) view
  | commit {view : View} {clock flushClock : UInt64} {fault : Option Nat}
      {flushFault : Option FlushFault} {map : SortedMap Bytes Bytes}
      (own : view.writer = some map) :
      Allows view (.commit clock fault flushClock flushFault) .done
        { view with committed := map, writer := none }
  | commitRefused {view : View} {clock flushClock : UInt64}
      {fault : Option Nat} {flushFault : Option FlushFault}
      (own : view.writer.isSome) (faulty : fault ≠ none) :
      Allows view (.commit clock fault flushClock flushFault) .failed
        { view with writer := none }
  | commitUnflushed {view : View} {clock flushClock : UInt64}
      {fault : Option Nat} {flushFault : Option FlushFault}
      {map : SortedMap Bytes Bytes} (own : view.writer = some map)
      (faulty : flushFault ≠ none) :
      Allows view (.commit clock fault flushClock flushFault) .failed
        { view with committed := map, writer := none }
  | abort {view : View} (own : view.writer.isSome) :
      Allows view .abort .done { view with writer := none }
  | drop {view : View} (own : view.writer.isSome) :
      Allows view .drop .done { view with writer := none }

end View

/-- What a specification with its files shows to a client. -/
def Spec.view (spec : Spec) : View :=
  ⟨spec.committed, spec.writer.map Overlaid.view, spec.readers⟩

/-! ## Requests a client can make -/

/-- The transactions which a client owns. -/
structure Handles where
  writing : Bool
  readers : Nat

namespace Request

/-- The types of the interface permit the call. -/
def Permitted (handles : Handles) : Request → Prop
  | .beginReadonly => True
  | .getReadonly reader _ | .scanReadonly reader _ =>
      reader < handles.readers
  | .begin => handles.writing = false
  | _ => handles.writing = true

/-- The transactions which the client owns behind a call. -/
def handles (before : Handles) : Request → Handles
  | .beginReadonly => { before with readers := before.readers + 1 }
  | .begin => { before with writing := true }
  | .commit .. | .abort | .drop => { before with writing := false }
  | _ => before

/-- Every call is permitted behind the ones before it. -/
def EachPermitted : Handles → List Request → Prop
  | _, [] => True
  | before, request :: rest =>
      request.Permitted before ∧ EachPermitted (request.handles before) rest

/-- An insertion which a table can hold. -/
def Fits : Request → Prop
  | .insert key value _ => Sst.Fits (key, value)
  | _ => True

/-- The bytes which a request may add to a table. -/
def weight : Request → Nat
  | .insert key value _ => 2 * key.length + value.length + 64
  | _ => 0

/-- The readings of the system clock. -/
def readings : Request → List UInt64
  | .commit clock _ flushClock _ => [clock, flushClock]
  | _ => []

instance (before : Handles) (request : Request) :
    Decidable (request.Permitted before) := by
  cases request <;> unfold Permitted <;> infer_instance

end Request

end Cdoc
