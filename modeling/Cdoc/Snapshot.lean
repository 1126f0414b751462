import Mathlib.Data.List.Forall2
import Cdoc.Layers
import Cdoc.Steps

/-!
# Snapshots

What the database is for, without its files: a map, the snapshots which
readers hold, and the map which the writer has locked together with its own
insertions.  The same events change it.

`step_refines` states that the process and this specification stay in step,
whatever the order of the events is and whether or not the device of the log
fails.
-/

namespace Cdoc

open Cdoc.Foundation
open Cdoc.Sst

/-! ## The specification -/

/-- The map which a writer has locked, and what it has inserted. -/
structure Overlaid where
  base : SortedMap Bytes Bytes
  inserts : List Entry

/-- The map with the insertions of the transaction. -/
def Overlaid.view (self : Overlaid) : SortedMap Bytes Bytes :=
  self.base.insertAll self.inserts

/--
The map of the committed transactions as readers find it, the map of those
whose commit record is completely written, the writer and the snapshots.
-/
structure Spec where
  committed : SortedMap Bytes Bytes
  durable : SortedMap Bytes Bytes
  writer : Option Overlaid
  readers : List (SortedMap Bytes Bytes)

namespace Spec

/-- The maps of a process which has just opened its files. -/
def start (map : SortedMap Bytes Bytes) : Spec :=
  ⟨map, map, none, []⟩

/--
What an event does to the maps.  A transaction counts as durable from its
commit record on, and as committed once it is published.
-/
def step (self : Spec) : Event → Spec
  | .beginReadonly =>
      { self with readers := self.readers ++ [self.committed] }
  | .begin => { self with writer := some ⟨self.committed, []⟩ }
  | .insert key value fault =>
      if accepts fault (8 + key.length + value.length) then
        { self with writer := self.writer.map fun own =>
            { own with inserts := own.inserts ++ [(key, value)] } }
      else
        self
  | .writeCommit _ fault =>
      if accepts fault 16 then
        { self with
          durable := (self.writer.map Overlaid.view).getD self.durable }
      else
        { self with writer := none }
  | .publish =>
      { self with
        committed := (self.writer.map Overlaid.view).getD self.committed }
  | .abort | .drop | .finish | .resetLog | .fail =>
      { self with writer := none }
  | .startFlush _ | .writeTmp _ | .rename | .swap => self

/-- The maps after a list of events. -/
def run (self : Spec) (events : List Event) : Spec :=
  events.foldl step self

theorem run_append (self : Spec) (first second : List Event) :
    self.run (first ++ second) = (self.run first).run second :=
  List.foldl_append

end Spec

/-! ## Memory tables -/

/-- A memory table with a right count whose entries a table can hold. -/
structure Storable (memtable : MemTable) : Prop where
  counted : memtable.Counted
  fits : ∀ entry ∈ memtable.entries.entries, Fits entry

theorem new_storable : Storable MemTable.new where
  counted := MemTable.new_counted
  fits := by
    intro entry member
    cases member

theorem Storable.insert {memtable : MemTable}
    (storable : Storable memtable) {key value : Bytes}
    (fits : Fits (key, value)) :
    ∃ result, memtable.insert key value = .ok result ∧
      Storable result ∧
      result.entries = memtable.entries.insert key value := by
  rcases MemTable.insert_of_counted storable.counted key value with
    ⟨result, inserted, counted, entries⟩
  refine ⟨result, inserted, ⟨counted, ?_⟩, entries⟩
  rw [entries]
  intro entry member
  rcases mem_insertEntry member with rfl | before
  · exact fits
  · exact storable.fits entry before

/-- The table of a storable memory table answers like it. -/
theorem Storable.answers {checksum : Checksum} {memtable : MemTable}
    (storable : Storable memtable) {ts : Timestamp} {bytes : Bytes}
    (written : writeTable checksum ts ts memtable.iter = .ok bytes) :
    ∃ reader, SSTableReader.openTable bytes = .ok (.ok reader) ∧
      Answers checksum reader memtable.entries.entries :=
  answers_of_written memtable.entries.increasing storable.fits written

/-! ## Refinement -/

/-- The fork of a transaction holds its insertions. -/
structure Forked (tx : ReadWriteTransaction) (inserts : List Entry) :
    Prop where
  entries : tx.fork.entries =
    tx.snapshot.active.entries.insertAll inserts
  storable : Storable tx.fork

theorem Forked.insert {tx : ReadWriteTransaction} {inserts : List Entry}
    (forked : Forked tx inserts) {key value : Bytes}
    (fits : Fits (key, value)) {fork : MemTable}
    (inserted : tx.fork.insert key value = .ok fork) :
    Forked { tx with fork } (inserts ++ [(key, value)]) := by
  rcases forked.storable.insert fits with
    ⟨result, same, storable, entries⟩
  rw [inserted] at same
  cases same
  constructor
  · show fork.entries = _
    rw [entries, forked.entries, SortedMap.insertAll_concat]
  · exact storable

/-- What the state of the writer tells about process and specification. -/
def WriterRefines (checksum : Checksum) (process : Process)
    (spec : Spec) : Prop :=
  match process.writer with
  | .idle => True
  | .active tx | .logged tx =>
      tx.snapshot = process.readable ∧
        ∃ inserts, spec.writer = some ⟨spec.committed, inserts⟩ ∧
          Forked tx inserts
  | .published tx => process.readable = tx.published
  | .flushing tx name written remaining =>
      process.readable = tx.published ∧
        process.sstDir.get (tmpName name) = some written ∧
        ∃ ts, writeTable checksum ts ts tx.fork.iter =
          .ok (written ++ remaining)
  | .renamed tx name =>
      process.readable = tx.published ∧
        ∃ ts bytes, process.sstDir.get name = some bytes ∧
          writeTable checksum ts ts tx.fork.iter = .ok bytes
  | .swapped _ => process.readable.active = MemTable.new

/-- The state of a process shows the maps of its specification. -/
structure Refines (checksum : Checksum) (process : Process)
    (spec : Spec) : Prop where
  atEnd : process.wal.file.AtEnd
  shown : Shows checksum process.readable spec.committed
  storable : Storable process.readable.active
  readers : List.Forall₂
    (fun reader map => Shows checksum reader.snapshot map)
    process.readers spec.readers
  writer : WriterRefines checksum process spec

/-- Keys and values of the insertions have at most 65535 bytes. -/
def Event.Fits : Event → Prop
  | .insert key value _ => Sst.Fits (key, value)
  | _ => True

section Steps

variable {checksum : Checksum} {rendering : Rendering}
variable {self next : Process} {spec : Spec}

/-- The state of the writer which the given equation names. -/
theorem Refines.writer_eq (refines : Refines checksum self spec)
    {writer : Writer} (named : self.writer = writer) :
    WriterRefines checksum { self with writer } spec := by
  subst named
  exact refines.writer

theorem refines_beginReadonly (refines : Refines checksum self spec) :
    Refines checksum
      { self with readers := self.readers ++ [self.beginReadonly] }
      (spec.step .beginReadonly) where
  atEnd := refines.atEnd
  shown := refines.shown
  storable := refines.storable
  readers := List.rel_append refines.readers
    (List.Forall₂.cons refines.shown List.Forall₂.nil)
  writer := refines.writer

theorem refines_begin (refines : Refines checksum self spec) :
    Refines checksum { self with writer := .active self.begin }
      (spec.step .begin) where
  atEnd := refines.atEnd
  shown := refines.shown
  storable := refines.storable
  readers := refines.readers
  writer := ⟨rfl, [], rfl, rfl, refines.storable⟩

theorem refines_insert (refines : Refines checksum self spec)
    {key value : Bytes} {fault : Option Nat} (fits : Fits (key, value))
    (stepped : self.insert checksum key value fault = some next) :
    Refines checksum next (spec.step (.insert key value fault)) := by
  rcases Process.insert_cases refines.atEnd stepped with
    ⟨tx, active, result⟩
  have writer := refines.writer_eq active
  rcases writer with ⟨snapshot, inserts, own, forked⟩
  rw [Spec.step]
  split at result
  · rename_i accepted
    rcases result with ⟨fork, inserted, rfl⟩
    rw [if_pos accepted]
    exact {
      atEnd := refines.atEnd.appended _ _
      shown := refines.shown
      storable := refines.storable
      readers := refines.readers
      writer := ⟨snapshot, inserts ++ [(key, value)], by rw [own]; rfl,
        forked.insert fits inserted⟩ }
  · rename_i refused
    rcases result with ⟨wal, torn, rfl⟩
    rw [if_neg refused]
    exact {
      atEnd := torn.atEnd
      shown := refines.shown
      storable := refines.storable
      readers := refines.readers
      writer := refines.writer }

/-- Releasing the lock leaves nothing to relate about the writer. -/
theorem Refines.release (refines : Refines checksum self spec)
    {wal : WriteAheadLog} (atEnd : wal.file.AtEnd) (counter : UInt64) :
    Refines checksum { self with wal, counter, writer := .idle }
      { spec with writer := none } where
  atEnd := atEnd
  shown := refines.shown
  storable := refines.storable
  readers := refines.readers
  writer := trivial

theorem refines_abort (refines : Refines checksum self spec)
    (stepped : self.abort = some next) :
    Refines checksum next { spec with writer := none } := by
  rcases Process.abort_cases stepped with ⟨-, wal, truncated, rfl⟩
  exact refines.release (WriteAheadLog.atEnd_of_truncate truncated)
    self.counter

theorem refines_writeCommit (refines : Refines checksum self spec)
    {clock : UInt64} {fault : Option Nat}
    (stepped : self.writeCommit checksum clock fault = some next) :
    Refines checksum next (spec.step (.writeCommit clock fault)) := by
  rcases Process.writeCommit_cases refines.atEnd stepped with
    ⟨tx, ts, active, -, result⟩
  have writer := refines.writer_eq active
  rw [Spec.step]
  split at result
  · rename_i accepted
    subst result
    rw [if_pos accepted]
    exact {
      atEnd := refines.atEnd.appended _ _
      shown := refines.shown
      storable := refines.storable
      readers := refines.readers
      writer := writer }
  · rename_i refused
    rcases result with ⟨wal, torn, rfl⟩
    rw [if_neg refused]
    exact refines.release torn.atEnd ts.val

/-- The first swap publishes what the transaction has inserted. -/
theorem refines_publish (refines : Refines checksum self spec)
    (stepped : self.publish = some next) :
    Refines checksum next (spec.step .publish) := by
  rcases Process.publish_cases stepped with ⟨tx, logged, rfl⟩
  rcases refines.writer_eq logged with ⟨snapshot, inserts, own, forked⟩
  have view : spec.step .publish =
      { spec with committed := spec.committed.insertAll inserts } := by
    simp only [Spec.step, own]
    rfl
  have shown := refines.shown
  rw [show self.readable = tx.snapshot from snapshot.symm] at shown
  rw [view]
  exact {
    atEnd := refines.atEnd
    shown := shown.insertAll forked.entries
    storable := forked.storable
    readers := refines.readers
    writer := rfl }

theorem refines_startFlush (refines : Refines checksum self spec)
    {clock : UInt64}
    (stepped : self.startFlush checksum rendering clock = some next) :
    Refines checksum next spec := by
  rcases Process.startFlush_cases stepped with
    ⟨tx, ts, name, bytes, published, -, -, written, rfl⟩
  exact {
    atEnd := refines.atEnd
    shown := refines.shown
    storable := refines.storable
    readers := refines.readers
    writer := ⟨refines.writer_eq published,
      SortedMap.get_insert_self _ _ _, ts, written⟩ }

theorem refines_writeTmp (refines : Refines checksum self spec)
    {count : Nat} (stepped : self.writeTmp count = some next) :
    Refines checksum next spec := by
  rcases Process.writeTmp_cases stepped with
    ⟨tx, name, written, remaining, flushing, rfl⟩
  rcases refines.writer_eq flushing with ⟨readable, -, ts, table⟩
  exact {
    atEnd := refines.atEnd
    shown := refines.shown
    storable := refines.storable
    readers := refines.readers
    writer := ⟨readable, SortedMap.get_insert_self _ _ _, ts, by
      rw [List.append_assoc, List.take_append_drop]
      exact table⟩ }

theorem refines_rename (refines : Refines checksum self spec)
    (stepped : self.rename = some next) :
    Refines checksum next spec := by
  rcases Process.rename_cases stepped with
    ⟨tx, name, written, contents, flushing, found, rfl⟩
  rcases refines.writer_eq flushing with ⟨readable, present, ts, table⟩
  have same : written = contents :=
    Option.some.inj (present.symm.trans found)
  rw [List.append_nil, same] at table
  exact {
    atEnd := refines.atEnd
    shown := refines.shown
    storable := refines.storable
    readers := refines.readers
    writer := ⟨readable, ts, contents,
      SortedMap.get_insert_self _ _ _, table⟩ }

/-- The table which the second swap brings in answers like the fork. -/
theorem Refines.renamed_answers (refines : Refines checksum self spec)
    {tx : ReadWriteTransaction} {name contents : Bytes}
    {reader : SSTableReader} (renamed : self.writer = .renamed tx name)
    (found : self.sstDir.get name = some contents)
    (opened : SSTableReader.openTable contents = .ok (.ok reader)) :
    self.readable = tx.published ∧
      Answers checksum reader tx.fork.entries.entries := by
  rcases refines.writer_eq renamed with
    ⟨readable, ts, bytes, present, table⟩
  have same : bytes = contents :=
    Option.some.inj (present.symm.trans found)
  have storable := refines.storable
  rw [show self.readable = tx.published from readable] at storable
  rcases Storable.answers storable table with ⟨expected, reopened, answers⟩
  rw [same, opened] at reopened
  cases reopened
  exact ⟨readable, answers⟩

/-- The second swap shows the same map. -/
theorem refines_swap (refines : Refines checksum self spec)
    (stepped : self.swap = some next) :
    Refines checksum next spec := by
  rcases Process.swap_cases stepped with
    ⟨tx, name, contents, reader, renamed, found, opened, rfl⟩
  rcases refines.renamed_answers renamed found opened with
    ⟨readable, answers⟩
  have shown := refines.shown
  rw [readable] at shown
  exact {
    atEnd := refines.atEnd
    shown := shown.flush answers
    storable := new_storable
    readers := refines.readers
    writer := rfl }

theorem refines_resetLog (refines : Refines checksum self spec)
    (stepped : self.resetLog = some next) :
    Refines checksum next { spec with writer := none } := by
  rcases Process.resetLog_cases stepped with ⟨tx, -, rfl⟩
  have atEnd : (WriteAheadLog.create.withFault
      self.wal.file.fault).file.AtEnd := rfl
  exact refines.release atEnd self.counter

/-- Process and specification stay in step. -/
theorem step_refines (refines : Refines checksum self spec)
    {event : Event} (fits : event.Fits)
    (stepped : self.step checksum rendering event = some next) :
    Refines checksum next (spec.step event) := by
  cases event with
  | beginReadonly =>
      cases stepped
      exact refines_beginReadonly refines
  | begin =>
      simp only [Process.step] at stepped
      split at stepped
      · cases stepped
        exact refines_begin refines
      · cases stepped
  | insert key value fault => exact refines_insert refines fits stepped
  | abort => exact refines_abort refines stepped
  | drop => exact refines_abort refines stepped
  | writeCommit clock fault => exact refines_writeCommit refines stepped
  | publish => exact refines_publish refines stepped
  | finish =>
      rcases Process.finish_cases stepped with ⟨tx, -, rfl⟩
      exact refines.release refines.atEnd self.counter
  | startFlush clock => exact refines_startFlush refines stepped
  | writeTmp count => exact refines_writeTmp refines stepped
  | rename => exact refines_rename refines stepped
  | swap => exact refines_swap refines stepped
  | resetLog => exact refines_resetLog refines stepped
  | fail =>
      rcases Process.fail_cases stepped with ⟨-, rfl⟩
      exact refines.release refines.atEnd self.counter

theorem run_refines (refines : Refines checksum self spec)
    {events : List Event} (fits : ∀ event ∈ events, event.Fits)
    (ran : self.run checksum rendering events = some next) :
    Refines checksum next (spec.run events) :=
  @run_beside _ _ _ _ Spec.step (Refines checksum) Event.Fits
    (fun _ _ _ _ refines fits stepped => step_refines refines fits stepped)
    self next spec events refines fits ran

end Steps

end Cdoc
