import Cdoc.Opening

/-!
# What the tables hold

The part of the durable map which does not depend on how the log ends: the
durable map consists of the tables and the memory table on top, and the
memory table consists of what opening has replayed and of the insertions
which were logged since.

While a table is renamed and the log is not yet reset, the memory table is
held twice.  It stays so when the flush fails there.
-/

namespace Cdoc

open Cdoc.Foundation
open Cdoc.Sst

/-- The table which a flush would start is named above all others. -/
def Process.NewestName (rendering : Rendering) (self : Process) :
    Event → Prop
  | .startFlush clock => ∀ ts name,
      Timestamp.now self.counter clock = .ok ts →
      rendering.fileName ts = .ok name →
      ∀ file ∈ Directory.filesWith SST self.sstDir, file.1 < name
  | _ => True

/-! ## File names -/

theorem extension_fileName {rendering : Rendering} {ts : Timestamp}
    {name : Bytes} (named : rendering.fileName ts = .ok name) :
    Directory.extension name = some SST := by
  rcases bind_eq_ok_iff.mp named with ⟨text, shown, done⟩
  cases done
  exact Directory.extension_append (rendering.nonempty ts text shown)
    (by decide) (by decide)

theorem extension_tmpName {name : Bytes}
    (table : Directory.extension name = some SST) :
    Directory.extension (tmpName name) = some TMP := by
  apply Directory.extension_append _ (by decide) (by decide)
  rintro rfl
  cases table

/-- A file which is not a table is no concern of the tables. -/
theorem filesWith_insert_tmp {directory : Directory} {name : Bytes}
    (table : Directory.extension name = some SST) (contents : Bytes) :
    Directory.filesWith SST (directory.insert (tmpName name) contents) =
      Directory.filesWith SST directory :=
  Directory.filesWith_insert_other
    (by rw [extension_tmpName table]; decide) contents

theorem tableFiles_insert_tmp {checksum : Checksum}
    {layers : List (SortedMap Bytes Bytes)} {directory : Directory}
    (files : TableFiles checksum directory layers) {name : Bytes}
    (table : Directory.extension name = some SST) (contents : Bytes) :
    TableFiles checksum (directory.insert (tmpName name) contents)
      layers := by
  unfold TableFiles
  rw [filesWith_insert_tmp table]
  exact files

/-! ## The invariant -/

/-- The memory table which the committed transactions have built. -/
def Process.front (self : Process) : MemTable :=
  match self.writer with
  | .idle | .active _ => self.readable.active
  | .logged tx | .published tx | .flushing tx _ _ _ | .renamed tx _
  | .swapped tx => tx.fork

/-- The tables in the directory, when the others are given. -/
def Writer.written (layers : List (SortedMap Bytes Bytes)) :
    Writer → List (SortedMap Bytes Bytes)
  | .renamed tx _ | .swapped tx => tx.fork.entries :: layers
  | _ => layers

/-- What the state of the writer tells about the durable map. -/
def WriterHolds (process : Process) (spec : Spec) : Prop :=
  match process.writer with
  | .logged _ => ∃ own, spec.writer = some own ∧ own.view = spec.durable
  | .flushing _ name _ _ =>
      spec.committed = spec.durable ∧
        Directory.extension name = some SST ∧
        ∀ file ∈ Directory.filesWith SST process.sstDir, file.1 < name
  | .idle | .active _ | .published _ | .renamed _ _ | .swapped _ =>
      spec.committed = spec.durable

/--
The durable map of a process: `replayed` is what opening found in the log,
`logged` are the insertions which were committed to the log since.
-/
structure Held (checksum : Checksum) (process : Process) (spec : Spec)
    (replayed : SortedMap Bytes Bytes) (logged : List Entry)
    (layers : List (SortedMap Bytes Bytes)) : Prop where
  files : TableFiles checksum process.sstDir
    (process.writer.written layers)
  front : process.front.entries = replayed.insertAll logged
  durable : spec.durable =
    SortedMap.stack (process.front.entries :: layers)
  writer : WriterHolds process spec

section Steps

variable {checksum : Checksum} {rendering : Rendering}
variable {self next : Process} {spec : Spec}
variable {replayed : SortedMap Bytes Bytes} {logged : List Entry}
variable {layers : List (SortedMap Bytes Bytes)}

/-- The invariant with the state of the writer put in. -/
theorem Held.at_writer
    (held : Held checksum self spec replayed logged layers)
    {writer : Writer} (named : self.writer = writer) :
    Held checksum { self with writer } spec replayed logged layers := by
  subst named
  exact held

/-- Nothing of the writer's transaction is logged yet. -/
def Writer.Unlogged (writer : Writer) : Prop :=
  writer = .idle ∨ ∃ tx, writer = .active tx

/-- Before anything is logged, the lock and the log are of no concern. -/
theorem Held.unlogged
    (held : Held checksum self spec replayed logged layers)
    (before : self.writer.Unlogged) {writer : Writer}
    (after : writer.Unlogged) (wal : WriteAheadLog) (counter : UInt64)
    (own : Option Overlaid) :
    Held checksum { self with wal, counter, writer }
      { spec with writer := own } replayed logged layers := by
  obtain ⟨files, front, durable, same⟩ :
      TableFiles checksum self.sstDir layers ∧
        self.readable.active.entries = replayed.insertAll logged ∧
        spec.durable = SortedMap.stack
          (self.readable.active.entries :: layers) ∧
        spec.committed = spec.durable := by
    rcases before with idle | ⟨tx, active⟩
    · have at_idle := held.at_writer idle
      exact ⟨at_idle.files, at_idle.front, at_idle.durable,
        at_idle.writer⟩
    · have at_active := held.at_writer active
      exact ⟨at_active.files, at_active.front, at_active.durable,
        at_active.writer⟩
  rcases after with rfl | ⟨tx, rfl⟩
  · exact ⟨files, front, durable, same⟩
  · exact ⟨files, front, durable, same⟩

/-- What the specification makes durable. -/
theorem Spec.step_writeCommit {clock : UInt64} {fault : Option Nat}
    (accepted : accepts fault 16 = true) {inserts : List Entry}
    (own : spec.writer = some ⟨spec.committed, inserts⟩)
    (same : spec.committed = spec.durable) :
    spec.step (.writeCommit clock fault) =
      { spec with durable := spec.durable.insertAll inserts } := by
  rw [Spec.step, if_pos accepted, own, same]
  rfl

/-- The commit record moves the insertions into the durable map. -/
theorem held_logged
    (held : Held checksum self spec replayed logged layers)
    {tx : ReadWriteTransaction} (active : self.writer = .active tx)
    (snapshot : tx.snapshot = self.readable) {inserts : List Entry}
    (own : spec.writer = some ⟨spec.committed, inserts⟩)
    (forked : Forked tx inserts) (wal : WriteAheadLog)
    (counter : UInt64) :
    Held checksum { self with wal, counter, writer := .logged tx }
      { spec with durable := spec.durable.insertAll inserts }
      replayed (logged ++ inserts) layers := by
  have before := held.at_writer active
  have same : spec.committed = spec.durable := before.writer
  have front : self.readable.active.entries = replayed.insertAll logged :=
    before.front
  have durable : spec.durable =
      SortedMap.stack (self.readable.active.entries :: layers) :=
    before.durable
  have fork : tx.fork.entries =
      self.readable.active.entries.insertAll inserts := by
    rw [forked.entries, snapshot]
  exact {
    files := before.files
    front := by
      show tx.fork.entries = _
      rw [fork, front, ← SortedMap.insertAll_append]
    durable := by
      show spec.durable.insertAll inserts =
        SortedMap.stack (tx.fork.entries :: layers)
      rw [fork, durable, SortedMap.stack, SortedMap.stack,
        SortedMap.overlay_insertAll]
    writer := by
      refine ⟨_, own, ?_⟩
      show spec.committed.insertAll inserts = spec.durable.insertAll inserts
      rw [same] }

theorem held_publish
    (held : Held checksum self spec replayed logged layers)
    (stepped : self.publish = some next) :
    Held checksum next (spec.step .publish) replayed logged layers := by
  rcases Process.publish_cases stepped with ⟨tx, loggedBefore, rfl⟩
  have before := held.at_writer loggedBefore
  rcases before.writer with ⟨own, writer, view⟩
  exact {
    files := before.files
    front := before.front
    durable := before.durable
    writer := by
      show (spec.step .publish).committed = (spec.step .publish).durable
      simp only [Spec.step, writer]
      exact view }

theorem held_finish
    (held : Held checksum self spec replayed logged layers)
    (refines : Refines checksum self spec)
    (stepped : self.finish = some next) :
    Held checksum next { spec with writer := none } replayed logged
      layers := by
  rcases Process.finish_cases stepped with ⟨tx, published, rfl⟩
  have before := held.at_writer published
  have active : self.readable.active = tx.fork := by
    rw [show self.readable = tx.published from refines.writer_eq published]
    rfl
  exact {
    files := before.files
    front := by
      show self.readable.active.entries = _
      rw [active]
      exact before.front
    durable := by
      show spec.durable =
        SortedMap.stack (self.readable.active.entries :: layers)
      rw [active]
      exact before.durable
    writer := before.writer }

theorem held_startFlush
    (held : Held checksum self spec replayed logged layers)
    {clock : UInt64}
    (newest : self.NewestName rendering (.startFlush clock))
    (stepped : self.startFlush checksum rendering clock = some next) :
    Held checksum next spec replayed logged layers := by
  rcases Process.startFlush_cases stepped with
    ⟨tx, ts, name, bytes, published, time, named, -, rfl⟩
  have before := held.at_writer published
  have table := extension_fileName named
  exact {
    files := tableFiles_insert_tmp before.files table []
    front := before.front
    durable := before.durable
    writer := ⟨before.writer, table, by
      show ∀ file ∈ Directory.filesWith SST
        (self.sstDir.insert (tmpName name) []), _
      rw [filesWith_insert_tmp table]
      exact newest ts name time named⟩ }

theorem held_writeTmp
    (held : Held checksum self spec replayed logged layers)
    {count : Nat} (stepped : self.writeTmp count = some next) :
    Held checksum next spec replayed logged layers := by
  rcases Process.writeTmp_cases stepped with
    ⟨tx, name, written, remaining, flushing, rfl⟩
  have before := held.at_writer flushing
  rcases before.writer with ⟨same, table, newest⟩
  exact {
    files := tableFiles_insert_tmp before.files table _
    front := before.front
    durable := before.durable
    writer := ⟨same, table, by
      show ∀ file ∈ Directory.filesWith SST
        (self.sstDir.insert (tmpName name) _), _
      rw [filesWith_insert_tmp table]
      exact newest⟩ }

/-- The renamed table is the newest one. -/
theorem held_rename
    (held : Held checksum self spec replayed logged layers)
    (refines : Refines checksum self spec)
    (stepped : self.rename = some next) :
    Held checksum next spec replayed logged layers := by
  rcases Process.rename_cases stepped with
    ⟨tx, name, written, contents, flushing, found, rfl⟩
  have before := held.at_writer flushing
  rcases before.writer with ⟨same, table, newest⟩
  rcases refines.writer_eq flushing with ⟨readable, present, ts, bytes⟩
  have contents_eq : written = contents :=
    Option.some.inj (present.symm.trans found)
  have storable := refines.storable
  rw [show self.readable = tx.published from readable] at storable
  have unchanged : Directory.filesWith SST
      (self.sstDir.erase (tmpName name)) =
      Directory.filesWith SST self.sstDir :=
    Directory.filesWith_erase_other
      (by rw [extension_tmpName table]; decide)
  have files : Directory.filesWith SST
      ((self.sstDir.erase (tmpName name)).insert name contents) =
      Directory.filesWith SST self.sstDir ++ [(name, contents)] := by
    rw [Directory.filesWith_insert_last table
      (by rw [unchanged]; exact newest), unchanged]
  exact {
    files := by
      show List.Forall₂ (TableFile checksum) (Directory.filesWith SST
        ((self.sstDir.erase (tmpName name)).insert name
          contents)).reverse (tx.fork.entries :: layers)
      rw [files, List.reverse_append]
      rw [List.append_nil, contents_eq] at bytes
      exact List.Forall₂.cons ⟨storable.fits, ts, ts, bytes⟩ before.files
    front := before.front
    durable := before.durable
    writer := same }

theorem held_swap
    (held : Held checksum self spec replayed logged layers)
    (stepped : self.swap = some next) :
    Held checksum next spec replayed logged layers := by
  rcases Process.swap_cases stepped with
    ⟨tx, name, contents, reader, renamed, -, -, rfl⟩
  have before := held.at_writer renamed
  exact {
    files := before.files
    front := before.front
    durable := before.durable
    writer := before.writer }

/-- With the log reset, nothing is left of the replayed records either. -/
theorem held_resetLog
    (held : Held checksum self spec replayed logged layers)
    (refines : Refines checksum self spec)
    {tx : ReadWriteTransaction} (swapped : self.writer = .swapped tx)
    (wal : WriteAheadLog) :
    Held checksum { self with wal, writer := .idle }
      { spec with writer := none } SortedMap.empty []
      (tx.fork.entries :: layers) := by
  have before := held.at_writer swapped
  have active : self.readable.active = MemTable.new :=
    refines.writer_eq swapped
  exact {
    files := before.files
    front := by
      show self.readable.active.entries = _
      rw [active]
      rfl
    durable := by
      show spec.durable = SortedMap.stack
        (self.readable.active.entries :: tx.fork.entries :: layers)
      rw [active]
      exact before.durable
    writer := before.writer }

/-- A flush which fails leaves the memory table in use. -/
theorem held_fail
    (held : Held checksum self spec replayed logged layers)
    (refines : Refines checksum self spec)
    (stepped : self.fail = some next) :
    ∃ layers', Held checksum next { spec with writer := none } replayed
        logged layers' ∧
      self.writer.written layers = next.writer.written layers' := by
  rcases Process.fail_cases stepped with
    ⟨⟨tx, published | ⟨name, written, remaining, flushing⟩ |
      ⟨name, renamed⟩⟩, rfl⟩
  · have before := held.at_writer published
    have readable : self.readable = tx.published :=
      refines.writer_eq published
    refine ⟨layers, ⟨before.files, ?_, ?_, before.writer⟩, by
      rw [published]
      rfl⟩
    · show self.readable.active.entries = _
      rw [readable]
      exact before.front
    · show spec.durable =
        SortedMap.stack (self.readable.active.entries :: layers)
      rw [readable]
      exact before.durable
  · have before := held.at_writer flushing
    have readable : self.readable = tx.published :=
      (refines.writer_eq flushing).1
    refine ⟨layers, ⟨before.files, ?_, ?_, before.writer.1⟩, by
      rw [flushing]
      rfl⟩
    · show self.readable.active.entries = _
      rw [readable]
      exact before.front
    · show spec.durable =
        SortedMap.stack (self.readable.active.entries :: layers)
      rw [readable]
      exact before.durable
  · -- the new table stays in the directory, below the same memory table
    have before := held.at_writer renamed
    have readable : self.readable = tx.published :=
      (refines.writer_eq renamed).1
    refine ⟨tx.fork.entries :: layers,
      ⟨before.files, ?_, ?_, before.writer⟩, by
        rw [renamed]
        rfl⟩
    · show self.readable.active.entries = _
      rw [readable]
      exact before.front
    · show spec.durable = SortedMap.stack
        (self.readable.active.entries :: tx.fork.entries :: layers)
      rw [readable]
      have durable : spec.durable =
          SortedMap.stack (tx.fork.entries :: layers) := before.durable
      rw [durable]
      exact (SortedMap.overlay_overlay_self _ _).symm

end Steps

end Cdoc
