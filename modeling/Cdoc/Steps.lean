import Cdoc.Db
import Cdoc.Foundation.Transitions
import Cdoc.WalFormat

/-!
# What events do

For each event, everything it may do to a process: the state of the writer
in which it is possible, what it needs and which fields it changes.
-/

namespace Cdoc

open Cdoc.Foundation
open Cdoc.Sst

/-- The record of an insertion. -/
def updateRecord (entry : Entry) : WalRecord :=
  ⟨entry.1, entry.2, none⟩

/-- The record which commits. -/
def commitRecord (ts : Timestamp) : WalRecord :=
  ⟨[], [], some ts⟩

theorem length_updateRecord (checksum : Checksum) (crc : UInt32)
    (entry : Entry) :
    ((updateRecord entry).bytes checksum crc).length =
      8 + entry.1.length + entry.2.length := by
  simp [WalRecord.length_bytes, updateRecord, WalRecord.timestampBytes]

theorem length_commitRecord (checksum : Checksum) (crc : UInt32)
    (ts : Timestamp) :
    ((commitRecord ts).bytes checksum crc).length = 16 := by
  simp [WalRecord.length_bytes, commitRecord, WalRecord.timestampBytes]

/-- A log which a failed call has left with a part of a record at its end. -/
structure Torn (checksum : Checksum) (before : WriteAheadLog)
    (record : WalRecord) (after : WriteAheadLog) : Prop where
  sound : after.file.fault = none
  atEnd : after.file.AtEnd
  contents : ∃ part, part <+: record.bytes checksum before.rollingCrc ∧
    part ≠ record.bytes checksum before.rollingCrc ∧
    after.file.contents = before.file.contents ++ part

namespace Process

variable {checksum : Checksum} {rendering : Rendering}
variable {self next : Process}

theorem insert_cases (atEnd : self.wal.file.AtEnd) {key value : Bytes}
    {fault : Option Nat}
    (stepped : self.insert checksum key value fault = some next) :
    ∃ tx, self.writer = .active tx ∧
      if accepts fault (8 + key.length + value.length) then
        ∃ fork, tx.fork.insert key value = .ok fork ∧
          next = { self with
            wal := self.wal.appendRecord checksum
              (updateRecord (key, value))
            writer := .active { tx with fork } }
      else
        ∃ wal, Torn checksum self.wal (updateRecord (key, value)) wal ∧
          next = { self with wal } := by
  unfold insert at stepped
  split at stepped
  · rename_i tx active
    refine ⟨tx, active, ?_⟩
    have written := WriteAheadLog.writeRecord_of_fault checksum atEnd
      (updateRecord (key, value)) fault
    rw [length_updateRecord] at written
    split
    · rename_i accepted
      rw [if_pos accepted] at written
      rcases written with ⟨result, recorded, same⟩
      have inserted : tx.insert checksum key value
          (self.wal.withFault fault) =
          .ok (do
            let fork ← tx.fork.insert key value
            return { tx with fork }) result :=
        io_bind_of_ok recorded
      rw [inserted] at stepped
      cases grown : tx.fork.insert key value with
      | error failure =>
          rw [grown] at stepped
          cases stepped
      | ok fork =>
          rw [grown] at stepped
          cases stepped
          exact ⟨fork, rfl, by rw [same]⟩
    · rename_i refused
      rw [if_neg refused] at written
      rcases written with
        ⟨result, part, failed, within, incomplete, contents, behind⟩
      have failure : tx.insert checksum key value
          (self.wal.withFault fault) = .error .device result :=
        io_bind_of_error failed
      rw [failure] at stepped
      cases stepped
      exact ⟨result.withFault none,
        ⟨rfl, behind, part, within, incomplete, contents⟩, rfl⟩
  · cases stepped

/-- An insertion on a sound device. -/
theorem insert_of_sound {tx : ReadWriteTransaction}
    (active : self.writer = .active tx) (atEnd : self.wal.file.AtEnd)
    {key value : Bytes} {fork : MemTable}
    (grown : tx.fork.insert key value = .ok fork) :
    self.insert checksum key value none =
      some { self with
        wal := self.wal.appendRecord checksum (updateRecord (key, value))
        writer := .active { tx with fork } } := by
  have written := WriteAheadLog.writeRecord_of_fault checksum atEnd
    (updateRecord (key, value)) none
  simp only [accepts, if_true] at written
  obtain ⟨result, recorded, same⟩ := written
  have inserted : tx.insert checksum key value (self.wal.withFault none) =
      .ok (do
        let fork ← tx.fork.insert key value
        return { tx with fork }) result :=
    io_bind_of_ok recorded
  simp only [insert, active, inserted, grown, ok_bind, pure_eq_ok,
    same]

theorem abort_cases (stepped : self.abort = some next) :
    (∃ tx, self.writer = .active tx) ∧
      ∃ wal, WriteAheadLog.truncateToLastCommit self.wal = .ok () wal ∧
        next = { self with wal, writer := .idle } := by
  unfold abort at stepped
  split at stepped
  · rename_i tx active
    rw [WriteAheadLog.truncateToLastCommit_eq] at stepped ⊢
    cases stepped
    exact ⟨⟨tx, active⟩, _, rfl, rfl⟩
  · cases stepped

theorem writeCommit_cases (atEnd : self.wal.file.AtEnd) {clock : UInt64}
    {fault : Option Nat}
    (stepped : self.writeCommit checksum clock fault = some next) :
    ∃ tx ts, self.writer = .active tx ∧
      Timestamp.now self.counter clock = .ok ts ∧
      if accepts fault 16 then
        next = { self with
          wal := self.wal.appendRecord checksum (commitRecord ts)
          counter := ts.val
          writer := .logged tx }
      else
        ∃ wal, Torn checksum self.wal (commitRecord ts) wal ∧
          next = { self with wal, counter := ts.val, writer := .idle } := by
  unfold writeCommit at stepped
  split at stepped
  · rename_i tx active
    split at stepped
    · cases stepped
    · rename_i ts time
      refine ⟨tx, ts, active, time, ?_⟩
      have written := WriteAheadLog.writeRecord_of_fault checksum atEnd
        (commitRecord ts) fault
      rw [length_commitRecord] at written
      unfold WriteAheadLog.writeCommit at stepped
      split
      · rename_i accepted
        rw [if_pos accepted] at written
        rcases written with ⟨result, recorded, same⟩
        simp only [commitRecord] at recorded
        rw [recorded] at stepped
        cases stepped
        rw [same]
      · rename_i refused
        rw [if_neg refused] at written
        rcases written with
          ⟨result, part, failed, within, incomplete, contents, behind⟩
        simp only [commitRecord] at failed
        rw [failed] at stepped
        cases stepped
        exact ⟨result.withFault none,
          ⟨rfl, behind, part, within, incomplete, contents⟩, rfl⟩
  · cases stepped

theorem publish_cases (stepped : self.publish = some next) :
    ∃ tx, self.writer = .logged tx ∧
      next = { self with
        readable := tx.published
        writer := .published tx } := by
  unfold publish at stepped
  split at stepped
  · rename_i tx logged
    cases stepped
    exact ⟨tx, logged, rfl⟩
  · cases stepped

theorem finish_cases (stepped : self.finish = some next) :
    ∃ tx, self.writer = .published tx ∧
      next = { self with writer := .idle } := by
  unfold finish at stepped
  split at stepped
  · rename_i tx published
    split at stepped
    · cases stepped
    · cases stepped
      exact ⟨tx, published, rfl⟩
  · cases stepped

theorem startFlush_cases {clock : UInt64}
    (stepped : self.startFlush checksum rendering clock = some next) :
    ∃ tx ts name bytes, self.writer = .published tx ∧
      Timestamp.now self.counter clock = .ok ts ∧
      rendering.fileName ts = .ok name ∧
      writeTable checksum ts ts tx.fork.iter = .ok bytes ∧
      next = { self with
        counter := ts.val
        sstDir := self.sstDir.insert (tmpName name) []
        writer := .flushing tx name [] bytes } := by
  unfold startFlush at stepped
  split at stepped
  · rename_i tx published
    split at stepped
    · split at stepped
      · cases stepped
      · rename_i ts time
        split at stepped
        · rename_i name bytes named written
          cases stepped
          exact ⟨tx, ts, name, bytes, published, time, named, written,
            rfl⟩
        · cases stepped
    · cases stepped
  · cases stepped

theorem writeTmp_cases {count : Nat}
    (stepped : self.writeTmp count = some next) :
    ∃ tx name written remaining,
      self.writer = .flushing tx name written remaining ∧
      next = { self with
        sstDir := self.sstDir.insert (tmpName name)
          (written ++ remaining.take count)
        writer := .flushing tx name (written ++ remaining.take count)
          (remaining.drop count) } := by
  unfold writeTmp at stepped
  split at stepped
  · rename_i tx name written remaining flushing
    cases stepped
    exact ⟨tx, name, written, remaining, flushing, rfl⟩
  · cases stepped

theorem rename_cases (stepped : self.rename = some next) :
    ∃ tx name written contents,
      self.writer = .flushing tx name written [] ∧
      self.sstDir.get (tmpName name) = some contents ∧
      next = { self with
        sstDir := (self.sstDir.erase (tmpName name)).insert name contents
        writer := .renamed tx name } := by
  unfold rename Directory.rename at stepped
  split at stepped
  · rename_i tx name written flushing
    cases found : self.sstDir.get (tmpName name) with
    | none =>
        rw [found] at stepped
        cases stepped
    | some contents =>
        rw [found] at stepped
        cases stepped
        exact ⟨tx, name, written, contents, flushing, found, rfl⟩
  · cases stepped

theorem swap_cases (stepped : self.swap = some next) :
    ∃ tx name contents reader, self.writer = .renamed tx name ∧
      self.sstDir.get name = some contents ∧
      SSTableReader.openTable contents = .ok (.ok reader) ∧
      next = { self with
        readable := tx.flushed reader
        writer := .swapped tx } := by
  unfold swap at stepped
  split at stepped
  · rename_i tx name renamed
    rcases Option.bind_eq_some_iff.mp stepped with
      ⟨contents, found, stepped⟩
    split at stepped
    · rename_i reader opened
      cases stepped
      exact ⟨tx, name, contents, reader, renamed, found, opened, rfl⟩
    · cases stepped
  · cases stepped

theorem resetLog_cases (stepped : self.resetLog = some next) :
    ∃ tx, self.writer = .swapped tx ∧
      next = { self with
        wal := WriteAheadLog.create.withFault self.wal.file.fault
        writer := .idle } := by
  unfold resetLog at stepped
  split at stepped
  · rename_i tx swapped
    rw [WriteAheadLog.reset_eq] at stepped
    cases stepped
    exact ⟨tx, swapped, rfl⟩
  · cases stepped

theorem fail_cases (stepped : self.fail = some next) :
    (∃ tx, self.writer = .published tx ∨
      (∃ name written remaining,
        self.writer = .flushing tx name written remaining) ∨
      ∃ name, self.writer = .renamed tx name) ∧
      next = { self with writer := .idle } := by
  unfold fail at stepped
  split at stepped
  · rename_i tx published
    cases stepped
    exact ⟨⟨tx, Or.inl published⟩, rfl⟩
  · rename_i tx name written remaining flushing
    cases stepped
    exact ⟨⟨tx, Or.inr (Or.inl ⟨name, written, remaining, flushing⟩)⟩,
      rfl⟩
  · rename_i tx name renamed
    cases stepped
    exact ⟨⟨tx, Or.inr (Or.inr ⟨name, renamed⟩)⟩, rfl⟩
  · cases stepped

/-! ## Runs -/

theorem run_cons_eq_some_iff {event : Event} {rest : List Event} :
    self.run checksum rendering (event :: rest) = some next ↔
      ∃ middle, self.step checksum rendering event = some middle ∧
        middle.run checksum rendering rest = some next := by
  rw [run, List.foldlM_cons]
  exact Option.bind_eq_some_iff

theorem run_append_eq_some_iff {first second : List Event} :
    self.run checksum rendering (first ++ second) = some next ↔
      ∃ middle, self.run checksum rendering first = some middle ∧
        middle.run checksum rendering second = some next := by
  rw [run, List.foldlM_append]
  exact Option.bind_eq_some_iff

theorem run_of_step {event : Event}
    (stepped : self.step checksum rendering event = some next) :
    self.run checksum rendering [event] = some next :=
  run_cons_eq_some_iff.mpr ⟨next, stepped, rfl⟩

theorem run_append {middle : Process} {first second : List Event}
    (begins : self.run checksum rendering first = some middle)
    (ends : middle.run checksum rendering second = some next) :
    self.run checksum rendering (first ++ second) = some next :=
  run_append_eq_some_iff.mpr ⟨middle, begins, ends⟩

/-! ## Events which leave the tables alone -/

/-- The tables and a running flush stay as they are. -/
structure SameTables (before after : Process) : Prop where
  sstDir : after.sstDir = before.sstDir
  flushing : ∀ tx name written remaining,
    after.writer = .flushing tx name written remaining →
      before.writer = .flushing tx name written remaining
  counter : before.counter.toNat ≤ after.counter.toNat

theorem SameTables.of_writer
    (sstDir : next.sstDir = self.sstDir)
    (counter : self.counter.toNat ≤ next.counter.toNat)
    (notFlushing : ∀ tx name written remaining,
      next.writer ≠ .flushing tx name written remaining) :
    self.SameTables next where
  sstDir := sstDir
  flushing := by
    intro tx name written remaining flushing
    exact absurd flushing (notFlushing tx name written remaining)
  counter := counter

theorem insert_sameTables {key value : Bytes} {fault : Option Nat}
    (stepped : self.insert checksum key value fault = some next) :
    self.SameTables next := by
  unfold insert at stepped
  split at stepped
  · split at stepped
    · cases stepped
      exact .of_writer rfl le_rfl (by simp)
    · cases stepped
    · cases stepped
      exact ⟨rfl, fun _ _ _ _ flushing => flushing, le_rfl⟩
  · cases stepped

theorem writeCommit_sameTables {clock : UInt64} {fault : Option Nat}
    (stepped : self.writeCommit checksum clock fault = some next) :
    self.SameTables next := by
  unfold writeCommit at stepped
  split at stepped
  · split at stepped
    · cases stepped
    · rename_i time
      have ahead := (Timestamp.counter_lt_of_now time).le
      split at stepped
      · cases stepped
        exact .of_writer rfl ahead (by simp)
      · cases stepped
        exact .of_writer rfl ahead (by simp)
  · cases stepped

end Process

/-- Events which touch neither the tables nor a flush. -/
def Event.LeavesTables : Event → Prop
  | .startFlush _ | .writeTmp _ | .rename => False
  | _ => True

theorem Process.step_sameTables {checksum : Checksum}
    {rendering : Rendering} {self next : Process} {event : Event}
    (stepped : self.step checksum rendering event = some next)
    (leaves : event.LeavesTables) : self.SameTables next := by
  cases event with
  | beginReadonly =>
      cases stepped
      exact ⟨rfl, fun _ _ _ _ flushing => flushing, le_rfl⟩
  | begin =>
      simp only [Process.step] at stepped
      split at stepped
      · cases stepped
        exact .of_writer rfl le_rfl (by simp)
      · cases stepped
  | insert key value fault => exact insert_sameTables stepped
  | abort | drop =>
      obtain ⟨_, wal, _, rfl⟩ := Process.abort_cases stepped
      exact .of_writer rfl le_rfl (by simp)
  | writeCommit clock fault => exact writeCommit_sameTables stepped
  | publish =>
      obtain ⟨tx, _, rfl⟩ := Process.publish_cases stepped
      exact .of_writer rfl le_rfl (by simp)
  | finish =>
      obtain ⟨tx, _, rfl⟩ := Process.finish_cases stepped
      exact .of_writer rfl le_rfl (by simp)
  | startFlush | writeTmp | rename => exact leaves.elim
  | swap =>
      obtain ⟨tx, name, contents, reader, _, _, _, rfl⟩ :=
        Process.swap_cases stepped
      exact .of_writer rfl le_rfl (by simp)
  | resetLog =>
      obtain ⟨tx, _, rfl⟩ := Process.resetLog_cases stepped
      exact .of_writer rfl le_rfl (by simp)
  | fail =>
      obtain ⟨_, rfl⟩ := Process.fail_cases stepped
      exact .of_writer rfl le_rfl (by simp)

end Cdoc
