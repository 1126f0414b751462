import Cdoc.Holding
import Cdoc.WalLaw

/-!
# What the files hold

The invariant which relates the files of a process to the specification when
no device fails.  It adds the log to what the tables hold: the insertions
which were logged are those of the committed records of the log.  Of the
records which opening has replayed the files know nothing any more.
-/

namespace Cdoc

open Cdoc.Foundation
open Cdoc.Sst
open WriteAheadLog (History Logged)

/-! ## Events -/

/-- Insertions which the log can represent, with a key. -/
def Event.Valid : Event → Prop
  | .insert key value _ =>
      1 ≤ key.length ∧ key.length ≤ 32767 ∧ value.length ≤ 65535
  | _ => True

/-- Events in which no device fails. -/
def Event.Sound : Event → Prop
  | .insert key value fault =>
      accepts fault (8 + key.length + value.length) = true
  | .writeCommit _ fault => accepts fault 16 = true
  | .fail => False
  | _ => True

theorem Event.Valid.fits {event : Event} (valid : event.Valid) :
    event.Fits := by
  cases event with
  | insert key value fault =>
      rcases valid with ⟨-, short, small⟩
      exact ⟨Nat.le_trans short (by decide), small⟩
  | _ => trivial

/-! ## The invariant -/

/-- The records of the committed transactions of the log. -/
def committedRecords (history : History) : List WalRecord :=
  history.committed.flatMap WriteAheadLog.Committed.records

/-- The tables in use. -/
def Writer.inUse (layers : List (SortedMap Bytes Bytes)) :
    Writer → List (SortedMap Bytes Bytes)
  | .swapped tx => tx.fork.entries :: layers
  | _ => layers

/-- What the state of the writer tells about the log and the names. -/
def WriterPersists (process : Process) (spec : Spec)
    (history : History) : Prop :=
  match process.writer with
  | .idle => history.pending = [] ∧ spec.committed = spec.durable
  | .active _ =>
      spec.committed = spec.durable ∧
        ∃ inserts, spec.writer = some ⟨spec.committed, inserts⟩ ∧
          history.pending = inserts.map updateRecord ∧
          ∀ entry ∈ inserts, entry.1 ≠ []
  | .logged _ =>
      history.pending = [] ∧
        ∃ own, spec.writer = some own ∧ own.view = spec.durable
  | .flushing _ name _ _ =>
      history.pending = [] ∧ spec.committed = spec.durable ∧
        Directory.extension name = some SST ∧
        ∀ file ∈ Directory.filesWith SST process.sstDir, file.1 < name
  | .published _ | .renamed _ _ | .swapped _ =>
      history.pending = [] ∧ spec.committed = spec.durable

/--
The tables, the log and the memory table of a process hold what is durable.
On top of the tables `replayed` was found by the last opening, and `history`
is what the log contains.
-/
structure Persists (checksum : Checksum) (process : Process)
    (spec : Spec) (replayed : SortedMap Bytes Bytes) (history : History)
    (layers : List (SortedMap Bytes Bytes)) : Prop where
  coherent : Logged.Coherent checksum ⟨process.wal, history⟩
  files : TableFiles checksum process.sstDir
    (process.writer.written layers)
  tables : AnswerLayers checksum process.readable.sstables
    (process.writer.inUse layers)
  front : process.front.entries =
    replayed.insertAll (updates (committedRecords history))
  durable : spec.durable =
    SortedMap.stack (process.front.entries :: layers)
  writer : WriterPersists process spec history

/-- The insertions of the open transaction are the pending records. -/
def WriterPends (process : Process) (spec : Spec) (history : History) :
    Prop :=
  match process.writer with
  | .active _ =>
      ∃ inserts, spec.writer = some ⟨spec.committed, inserts⟩ ∧
        history.pending = inserts.map updateRecord ∧
        ∀ entry ∈ inserts, entry.1 ≠ []
  | _ => history.pending = []

theorem writerPersists_iff {process : Process} {spec : Spec}
    {history : History} :
    WriterPersists process spec history ↔
      WriterHolds process spec ∧ WriterPends process spec history := by
  unfold WriterPersists WriterHolds WriterPends
  cases process.writer with
  | active tx => exact Iff.rfl
  | idle | logged tx | published tx | flushing tx name written remaining
  | renamed tx name | swapped tx => exact and_comm

section Steps

variable {checksum : Checksum} {rendering : Rendering}
variable {self next : Process} {spec : Spec}
variable {replayed : SortedMap Bytes Bytes} {history : History}
variable {layers : List (SortedMap Bytes Bytes)}

/-- The invariant with the state of the writer put in. -/
theorem Persists.at_writer
    (persists : Persists checksum self spec replayed history layers)
    {writer : Writer} (named : self.writer = writer) :
    Persists checksum { self with writer } spec replayed history
      layers := by
  subst named
  exact persists

/-- The part which does not concern the log. -/
theorem Persists.held
    (persists : Persists checksum self spec replayed history layers) :
    Held checksum self spec replayed (updates (committedRecords history))
      layers where
  files := persists.files
  front := persists.front
  durable := persists.durable
  writer := (writerPersists_iff.mp persists.writer).1

theorem Persists.pends
    (persists : Persists checksum self spec replayed history layers) :
    WriterPends self spec history :=
  (writerPersists_iff.mp persists.writer).2

/-- The whole invariant from its parts. -/
theorem Held.persists
    (held : Held checksum self spec replayed
      (updates (committedRecords history)) layers)
    (coherent : Logged.Coherent checksum ⟨self.wal, history⟩)
    (tables : AnswerLayers checksum self.readable.sstables
      (self.writer.inUse layers))
    (pends : WriterPends self spec history) :
    Persists checksum self spec replayed history layers where
  coherent := coherent
  files := held.files
  tables := tables
  front := held.front
  durable := held.durable
  writer := writerPersists_iff.mpr ⟨held.writer, pends⟩

theorem persists_beginReadonly
    (persists : Persists checksum self spec replayed history layers) :
    Persists checksum
      { self with readers := self.readers ++ [self.beginReadonly] }
      (spec.step .beginReadonly) replayed history layers where
  coherent := persists.coherent
  files := persists.files
  tables := persists.tables
  front := persists.front
  durable := persists.durable
  writer := persists.writer

theorem persists_begin
    (persists : Persists checksum self spec replayed history layers)
    (idle : self.writer = .idle) :
    Persists checksum { self with writer := .active self.begin }
      (spec.step .begin) replayed history layers := by
  have before := persists.at_writer idle
  have held : Held checksum { self with writer := .active self.begin }
      (spec.step .begin) replayed (updates (committedRecords history))
      layers :=
    persists.held.unlogged (Or.inl idle) (Or.inr ⟨self.begin, rfl⟩)
      self.wal self.counter _
  exact held.persists before.coherent before.tables
    ⟨[], rfl, before.pends, by simp⟩

theorem updates_updateRecords {inserts : List Entry}
    (named : ∀ entry ∈ inserts, entry.1 ≠ []) :
    updates (inserts.map updateRecord) = inserts := by
  induction inserts with
  | nil => rfl
  | cons head tail induction =>
      have first := named head List.mem_cons_self
      have others := induction fun entry member =>
        named entry (List.mem_cons_of_mem _ member)
      rw [List.map_cons, updates, List.filter_cons_of_pos
        (by simpa [updateRecord] using first), List.map_cons]
      exact congrArg (List.cons head) others

theorem persists_insert
    (persists : Persists checksum self spec replayed history layers)
    {key value : Bytes} {fault : Option Nat}
    (valid : Event.Valid (.insert key value fault))
    (sound : accepts fault (8 + key.length + value.length) = true)
    (stepped : self.insert checksum key value fault = some next) :
    ∃ history, Persists checksum next
      (spec.step (.insert key value fault)) replayed history layers := by
  rcases Process.insert_cases persists.coherent.atEnd stepped with
    ⟨tx, active, result⟩
  rw [if_pos sound] at result
  rcases result with ⟨fork, -, rfl⟩
  have before := persists.at_writer active
  rcases before.pends with ⟨inserts, own, pending, named⟩
  have joined : spec.step (.insert key value fault) =
      { spec with
        writer := some ⟨spec.committed, inserts ++ [(key, value)]⟩ } := by
    rw [Spec.step, if_pos sound, own]
    rfl
  rw [joined]
  have recordValid : (updateRecord (key, value)).Valid := Or.inl valid
  have coherent := before.coherent.appendRecord checksum recordValid
  have held : Held checksum
      { self with
        wal := self.wal.appendRecord checksum (updateRecord (key, value))
        writer := .active { tx with fork } }
      { spec with
        writer := some ⟨spec.committed, inserts ++ [(key, value)]⟩ }
      replayed (updates (committedRecords history)) layers :=
    persists.held.unlogged (Or.inr ⟨tx, active⟩) (Or.inr ⟨_, rfl⟩) _
      self.counter _
  have unchanged : committedRecords (history.record
      (updateRecord (key, value)) (self.wal.appendRecord checksum
        (updateRecord (key, value))).file.contents.length) =
      committedRecords history := rfl
  rw [← unchanged] at held
  refine ⟨_, held.persists coherent before.tables
    ⟨inserts ++ [(key, value)], rfl, ?_, ?_⟩⟩
  · show (history.record (updateRecord (key, value)) _).pending = _
    simp [History.record, updateRecord, pending]
  · intro entry member
    rcases List.mem_append.mp member with earlier | last
    · exact named entry earlier
    · rw [List.mem_singleton.mp last]
      exact List.ne_nil_of_length_pos valid.1

theorem persists_abort
    (persists : Persists checksum self spec replayed history layers)
    (stepped : self.abort = some next) :
    Persists checksum next { spec with writer := none } replayed
      ⟨history.committed, []⟩ layers := by
  rcases Process.abort_cases stepped with
    ⟨⟨tx, active⟩, wal, truncated, rfl⟩
  have before := persists.at_writer active
  rcases before.coherent.truncate checksum with ⟨log, same, coherent⟩
  have log_eq : wal = log := by
    have equal := truncated.symm.trans same
    cases equal
    rfl
  subst log_eq
  have held : Held checksum { self with wal, writer := .idle }
      { spec with writer := none } replayed
      (updates (committedRecords ⟨history.committed, []⟩)) layers :=
    persists.held.unlogged (Or.inr ⟨tx, active⟩) (Or.inl rfl) wal
      self.counter none
  exact held.persists coherent before.tables rfl

/-- The records of the committed transactions when one more commits. -/
theorem updates_committedRecords_record {ts : Timestamp} {stop : Nat}
    {inserts : List Entry} (pending : history.pending =
      inserts.map updateRecord) (named : ∀ entry ∈ inserts, entry.1 ≠ []) :
    updates (committedRecords (history.record (commitRecord ts) stop)) =
      updates (committedRecords history) ++ inserts := by
  have records : committedRecords (history.record (commitRecord ts) stop) =
      committedRecords history ++
        (history.pending ++ [commitRecord ts]) := by
    simp [committedRecords, History.record, commitRecord]
  have last : updates [commitRecord ts] = [] := rfl
  rw [records, updates_append, updates_append, pending,
    updates_updateRecords named, last, List.append_nil]

/-- The commit record moves the insertions into the durable map. -/
theorem persists_writeCommit
    (persists : Persists checksum self spec replayed history layers)
    (refines : Refines checksum self spec) {clock : UInt64}
    {fault : Option Nat} (sound : accepts fault 16 = true)
    (stepped : self.writeCommit checksum clock fault = some next) :
    ∃ history, Persists checksum next
      (spec.step (.writeCommit clock fault)) replayed history
        layers := by
  rcases Process.writeCommit_cases persists.coherent.atEnd stepped with
    ⟨tx, ts, active, -, result⟩
  rw [if_pos sound] at result
  subst result
  have before := persists.at_writer active
  rcases before.pends with ⟨inserts, own, pending, named⟩
  rcases refines.writer_eq active with ⟨snapshot, others, own', forked⟩
  have inserts_eq : inserts = others := by
    rw [own] at own'
    cases own'
    rfl
  subst inserts_eq
  have same : spec.committed = spec.durable := before.held.writer
  have markerValid : (commitRecord ts).Valid := Or.inr ⟨rfl, rfl⟩
  have held := held_logged persists.held active snapshot own forked
    (self.wal.appendRecord checksum (commitRecord ts)) ts.val
  rw [← updates_committedRecords_record pending named] at held
  rw [Spec.step_writeCommit sound own same]
  exact ⟨_, held.persists
    (before.coherent.appendRecord checksum markerValid)
    before.tables rfl⟩

theorem persists_publish
    (persists : Persists checksum self spec replayed history layers)
    (refines : Refines checksum self spec)
    (stepped : self.publish = some next) :
    Persists checksum next (spec.step .publish) replayed history
      layers := by
  have held := held_publish persists.held stepped
  rcases Process.publish_cases stepped with ⟨tx, logged, rfl⟩
  have before := persists.at_writer logged
  rcases refines.writer_eq logged with ⟨snapshot, -⟩
  have sstables : tx.snapshot.sstables = self.readable.sstables :=
    congrArg ReadableState.sstables snapshot
  refine held.persists before.coherent ?_ before.pends
  show AnswerLayers checksum tx.snapshot.sstables layers
  rw [sstables]
  exact before.tables

theorem persists_finish
    (persists : Persists checksum self spec replayed history layers)
    (refines : Refines checksum self spec)
    (stepped : self.finish = some next) :
    Persists checksum next { spec with writer := none } replayed history
      layers := by
  have held := held_finish persists.held refines stepped
  rcases Process.finish_cases stepped with ⟨tx, published, rfl⟩
  have before := persists.at_writer published
  exact held.persists before.coherent before.tables before.pends

theorem persists_startFlush
    (persists : Persists checksum self spec replayed history layers)
    {clock : UInt64}
    (newest : self.NewestName rendering (.startFlush clock))
    (stepped : self.startFlush checksum rendering clock = some next) :
    Persists checksum next spec replayed history layers := by
  have held := held_startFlush persists.held newest stepped
  rcases Process.startFlush_cases stepped with
    ⟨tx, ts, name, bytes, published, -, -, -, rfl⟩
  have before := persists.at_writer published
  exact held.persists before.coherent before.tables before.pends

theorem persists_writeTmp
    (persists : Persists checksum self spec replayed history layers)
    {count : Nat} (stepped : self.writeTmp count = some next) :
    Persists checksum next spec replayed history layers := by
  have held := held_writeTmp persists.held stepped
  rcases Process.writeTmp_cases stepped with
    ⟨tx, name, written, remaining, flushing, rfl⟩
  have before := persists.at_writer flushing
  exact held.persists before.coherent before.tables before.pends

/-- The renamed table is the newest one. -/
theorem persists_rename
    (persists : Persists checksum self spec replayed history layers)
    (refines : Refines checksum self spec)
    (stepped : self.rename = some next) :
    Persists checksum next spec replayed history layers := by
  have held := held_rename persists.held refines stepped
  rcases Process.rename_cases stepped with
    ⟨tx, name, written, contents, flushing, -, rfl⟩
  have before := persists.at_writer flushing
  exact held.persists before.coherent before.tables before.pends

theorem persists_swap
    (persists : Persists checksum self spec replayed history layers)
    (refines : Refines checksum self spec)
    (stepped : self.swap = some next) :
    Persists checksum next spec replayed history layers := by
  have held := held_swap persists.held stepped
  rcases Process.swap_cases stepped with
    ⟨tx, name, contents, reader, renamed, found, opened, rfl⟩
  have before := persists.at_writer renamed
  rcases refines.renamed_answers renamed found opened with
    ⟨readable, answers⟩
  have sstables : tx.snapshot.sstables = self.readable.sstables := by
    rw [readable]
    rfl
  refine held.persists before.coherent
    (List.Forall₂.cons answers ?_) before.pends
  rw [sstables]
  exact before.tables

/-- With the log reset, nothing is left of the replayed records either. -/
theorem persists_resetLog
    (persists : Persists checksum self spec replayed history layers)
    (refines : Refines checksum self spec)
    (stepped : self.resetLog = some next) :
    ∃ layers, Persists checksum next { spec with writer := none }
      SortedMap.empty ⟨[], []⟩ layers := by
  rcases Process.resetLog_cases stepped with ⟨tx, swapped, rfl⟩
  have before := persists.at_writer swapped
  have sound : self.wal.file.fault = none := before.coherent.sound
  have held := held_resetLog persists.held refines swapped
    (WriteAheadLog.create.withFault self.wal.file.fault)
  refine ⟨tx.fork.entries :: layers, held.persists ?_ before.tables rfl⟩
  rw [sound]
  exact Logged.created_coherent checksum

/-- Without a failing device every event keeps the invariant. -/
theorem step_persists
    (persists : Persists checksum self spec replayed history layers)
    (refines : Refines checksum self spec) {event : Event}
    (valid : event.Valid) (sound : event.Sound)
    (newest : self.NewestName rendering event)
    (stepped : self.step checksum rendering event = some next) :
    ∃ replayed' history' layers',
      Persists checksum next (spec.step event) replayed' history'
        layers' ∧
      (replayed' = replayed ∨ replayed' = SortedMap.empty) := by
  cases event with
  | beginReadonly =>
      cases stepped
      exact ⟨_, _, _, persists_beginReadonly persists, Or.inl rfl⟩
  | begin =>
      simp only [Process.step] at stepped
      split at stepped
      · rename_i idle
        cases stepped
        exact ⟨_, _, _, persists_begin persists idle, Or.inl rfl⟩
      · cases stepped
  | insert key value fault =>
      rcases persists_insert persists valid sound stepped with
        ⟨history', result⟩
      exact ⟨_, _, _, result, Or.inl rfl⟩
  | abort =>
      exact ⟨_, _, _, persists_abort persists stepped, Or.inl rfl⟩
  | drop =>
      exact ⟨_, _, _, persists_abort persists stepped, Or.inl rfl⟩
  | writeCommit clock fault =>
      rcases persists_writeCommit persists refines sound stepped with
        ⟨history', result⟩
      exact ⟨_, _, _, result, Or.inl rfl⟩
  | publish =>
      exact ⟨_, _, _, persists_publish persists refines stepped,
        Or.inl rfl⟩
  | finish =>
      exact ⟨_, _, _, persists_finish persists refines stepped,
        Or.inl rfl⟩
  | startFlush clock =>
      exact ⟨_, _, _, persists_startFlush persists newest stepped,
        Or.inl rfl⟩
  | writeTmp count =>
      exact ⟨_, _, _, persists_writeTmp persists stepped, Or.inl rfl⟩
  | rename =>
      exact ⟨_, _, _, persists_rename persists refines stepped,
        Or.inl rfl⟩
  | swap =>
      exact ⟨_, _, _, persists_swap persists refines stepped,
        Or.inl rfl⟩
  | resetLog =>
      rcases persists_resetLog persists refines stepped with
        ⟨layers', result⟩
      exact ⟨_, _, _, result, Or.inr rfl⟩
  | fail => cases sound

end Steps

end Cdoc
