import Cdoc.Snapshot
import Cdoc.WalFrames

/-!
# Opening a database

What `openDb` makes of a directory whose tables were written by the writer
of tables: each is opened, the newest name first, and the log is replayed on
top of them.  The log may be damaged in any way.
-/

namespace Cdoc

open Cdoc.Foundation
open Cdoc.Sst

/-! ## Tables -/

/-- The contents of a file which was written from the given map. -/
def TableFile (checksum : Checksum) (file : Bytes × Bytes)
    (layer : SortedMap Bytes Bytes) : Prop :=
  (∀ entry ∈ layer.entries, Fits entry) ∧
    ∃ minTs maxTs,
      writeTable checksum minTs maxTs layer.entries = .ok file.2

/-- The tables of a directory, the greatest name first. -/
def TableFiles (checksum : Checksum) (directory : Directory)
    (layers : List (SortedMap Bytes Bytes)) : Prop :=
  List.Forall₂ (TableFile checksum)
    (Directory.filesWith SST directory).reverse layers

theorem openTables_of_tableFiles {checksum : Checksum}
    {files : List (Bytes × Bytes)}
    {layers : List (SortedMap Bytes Bytes)}
    (tables : List.Forall₂ (TableFile checksum) files layers) :
    ∃ sstables, Db.openTables files = .ok (.ok sstables) ∧
      AnswerLayers checksum sstables layers := by
  induction tables with
  | nil => exact ⟨[], rfl, List.Forall₂.nil⟩
  | @cons file layer files layers table others induction =>
      rcases table with ⟨fits, minTs, maxTs, written⟩
      rcases answers_of_written layer.increasing fits written with
        ⟨reader, opened, answers⟩
      rcases induction with ⟨sstables, openedOthers, answersOthers⟩
      refine ⟨reader :: sstables, ?_,
        List.Forall₂.cons answers answersOthers⟩
      rw [Db.openTables, opened, ok_bind]
      dsimp only
      rw [openedOthers]
      rfl

theorem filesWith_clean (directory : Directory) :
    Directory.filesWith SST (directory.select
      (fun name => decide (Directory.extension name ≠ some TMP))) =
      Directory.filesWith SST directory := by
  refine congrArg SortedMap.entries (SortedMap.ext_get fun name => ?_)
  rw [SortedMap.get_select, SortedMap.get_select, SortedMap.get_select]
  by_cases table : Directory.extension name = some SST
  · have different : SST ≠ TMP := by decide
    simp [table, different]
  · simp [table]

/-- Removing the unfinished files leaves the tables. -/
theorem tableFiles_clean {checksum : Checksum} {directory : Directory}
    {layers : List (SortedMap Bytes Bytes)}
    (files : TableFiles checksum directory layers) :
    TableFiles checksum (directory.select
      (fun name => decide (Directory.extension name ≠ some TMP)))
        layers := by
  unfold TableFiles
  rw [filesWith_clean]
  exact files

/-! ## Replayed records -/

theorem replay_lengths {checksum : Checksum} {memory : Nat → Nat → UInt8}
    {contents : Bytes} {records : List WalRecord}
    (replayed : WriteAheadLog.replay checksum memory contents =
      .ok records) :
    ∀ record ∈ records,
      record.key.length ≤ 32767 ∧ record.value.length ≤ 65535 := by
  rcases bind_eq_ok_iff.mp replayed with ⟨state, looped, done⟩
  cases done
  intro record member
  obtain ⟨final, frames, finished, readable, -, collected, -⟩ :=
    WriteAheadLog.replayLoop_frames checksum memory ⟨contents, [], 0, 0⟩
      (Nat.lt_succ_self _)
  rw [looped] at finished
  cases finished
  rw [collected, List.nil_append] at member
  have fits := readable record (List.mem_of_mem_take member)
  exact ⟨Nat.le_of_lt_succ fits.key_lt, Nat.le_of_lt_succ fits.value_lt⟩

/-- Whatever the log holds, what is replayed fits into a table. -/
theorem replay_fits {checksum : Checksum} {memory : Nat → Nat → UInt8}
    {contents : Bytes} {records : List WalRecord}
    (replayed : WriteAheadLog.replay checksum memory contents =
      .ok records) :
    ∀ record ∈ records, Fits (record.key, record.value) := by
  intro record member
  have lengths := replay_lengths replayed record member
  exact ⟨lengths.1.trans (by decide), lengths.2⟩

/-- The insertions which records stand for. -/
def updates (records : List WalRecord) : List Entry :=
  (records.filter (fun record => !record.key.isEmpty)).map
    fun record => (record.key, record.value)

theorem updates_append (left right : List WalRecord) :
    updates (left ++ right) = updates left ++ updates right := by
  simp [updates]

/-- The records are inserted one after the other. -/
theorem replayRecords {memtable : MemTable}
    (storable : Storable memtable) {records : List WalRecord}
    (fits : ∀ record ∈ records, Fits (record.key, record.value)) :
    ∃ result, records.foldlM Db.replayRecord memtable = .ok result ∧
      Storable result ∧
      result.entries = memtable.entries.insertAll (updates records) := by
  induction records generalizing memtable with
  | nil => exact ⟨memtable, rfl, storable, rfl⟩
  | cons record records induction =>
      have others : ∀ record ∈ records,
          Fits (record.key, record.value) :=
        fun other member => fits other (List.mem_cons_of_mem _ member)
      rw [List.foldlM_cons, Db.replayRecord]
      cases empty : record.key.isEmpty with
      | true =>
          rcases induction storable others with
            ⟨result, done, resultStorable, entries⟩
          refine ⟨result, done, resultStorable, ?_⟩
          rw [entries, updates, updates, List.filter_cons_of_neg
            (by simp [empty])]
      | false =>
          rcases storable.insert (fits record List.mem_cons_self) with
            ⟨middle, inserted, middleStorable, middleEntries⟩
          rcases induction middleStorable others with
            ⟨result, done, resultStorable, entries⟩
          refine ⟨result, ?_, resultStorable, ?_⟩
          · rw [if_pos (by rfl), inserted, ok_bind, done]
          · rw [entries, middleEntries, updates, updates,
              List.filter_cons_of_pos (by simp [empty])]
            rfl

/-! ## Opening -/

/-- What a database is when it has just been opened. -/
structure Opened (checksum : Checksum) (disk : Disk) (memtableSize : Nat)
    (layers : List (SortedMap Bytes Bytes)) (records : List WalRecord)
    (db : Db) : Prop where
  answers : AnswerLayers checksum db.readable.sstables layers
  entries : db.readable.active.entries =
    SortedMap.empty.insertAll (updates records)
  storable : Storable db.readable.active
  wal : db.wal = WriteAheadLog.create
  sstDir : db.sstDir = disk.sstDir.select
    (fun name => decide (Directory.extension name ≠ some TMP))
  memtableSize : db.memtableSize = memtableSize

/-- The records which opening replays. -/
def replayedRecords (checksum : Checksum) (memory : Nat → Nat → UInt8)
    (disk : Disk) : Checked (List WalRecord) :=
  match disk.wal with
  | some contents => WriteAheadLog.replay checksum memory contents
  | none => .ok []

theorem replayLog_eq (checksum : Checksum) (memory : Nat → Nat → UInt8)
    (disk : Disk) :
    Db.replayLog checksum memory disk.wal =
      (replayedRecords checksum memory disk >>= fun records =>
        records.foldlM Db.replayRecord MemTable.new) := by
  unfold Db.replayLog replayedRecords
  cases disk.wal with
  | some contents => rfl
  | none => rfl

theorem openDb_of_tableFiles {checksum : Checksum}
    {memory : Nat → Nat → UInt8} {disk : Disk}
    {layers : List (SortedMap Bytes Bytes)} {records : List WalRecord}
    (tables : TableFiles checksum disk.sstDir layers)
    (replayed : replayedRecords checksum memory disk = .ok records)
    (memtableSize : Nat) :
    ∃ db, Db.openDb checksum memory disk memtableSize = .ok (.ok db) ∧
      Opened checksum disk memtableSize layers records db := by
  have fits : ∀ record ∈ records, Fits (record.key, record.value) := by
    unfold replayedRecords at replayed
    split at replayed
    · exact replay_fits replayed
    · cases replayed
      intro record member
      cases member
  rcases openTables_of_tableFiles tables with ⟨sstables, opened, answers⟩
  rcases replayRecords new_storable fits with
    ⟨memtable, inserted, storable, entries⟩
  unfold Db.openDb
  dsimp only
  rw [filesWith_clean, opened, ok_bind, replayLog_eq, replayed, ok_bind,
    inserted]
  exact ⟨_, rfl, answers, entries, storable, rfl, rfl, rfl⟩

/-- The database of an empty directory. -/
def Db.fresh (memtableSize : Nat) : Db where
  readable := ⟨MemTable.new, []⟩
  wal := WriteAheadLog.create
  sstDir := SortedMap.empty
  memtableSize := memtableSize

theorem openDb_empty (checksum : Checksum) (memory : Nat → Nat → UInt8)
    (memtableSize : Nat) :
    Db.openDb checksum memory Disk.empty memtableSize =
      .ok (.ok (Db.fresh memtableSize)) :=
  rfl

theorem tableFiles_empty (checksum : Checksum) :
    TableFiles checksum Disk.empty.sstDir [] :=
  List.Forall₂.nil

end Cdoc
