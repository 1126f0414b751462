import Cdoc.Foundation.Overlay
import Cdoc.Sst.RoundTrip
import Cdoc.Transaction

/-!
# What a readable state shows

A memory table and a list of tables, the newest first, are layers of one
map.  The two ways in which transactions read them agree: `get` asks the
layers from the top and `scan` inserts them from the bottom.
-/

namespace Cdoc

open Cdoc.Foundation
open Cdoc.Sst

/-- Each table answers like the layer at its place. -/
def AnswerLayers (checksum : Checksum) (sstables : List SSTableReader)
    (layers : List (SortedMap Bytes Bytes)) : Prop :=
  List.Forall₂ (fun sst layer => Answers checksum sst layer.entries)
    sstables layers

/-- A readable state and the map which transactions find in it. -/
def Shows (checksum : Checksum) (readable : ReadableState)
    (map : SortedMap Bytes Bytes) : Prop :=
  ∃ layers, AnswerLayers checksum readable.sstables layers ∧
    map = SortedMap.stack (readable.active.entries :: layers)

section Reading

variable {checksum : Checksum} {sstables : List SSTableReader}
variable {layers : List (SortedMap Bytes Bytes)}

theorem getFromTables_eq
    (answers : AnswerLayers checksum sstables layers) (key : Bytes) :
    getFromTables checksum key sstables =
      .ok ((SortedMap.stack layers).get key) := by
  induction answers with
  | nil => rfl
  | @cons sst layer sstables layers first others induction =>
      rw [getFromTables, first.get key, ok_bind]
      have found : lookup key layer.entries = layer.get key := rfl
      rw [found, SortedMap.stack, SortedMap.get_overlay]
      cases layer.get key with
      | some value => rfl
      | none => exact induction

/-- Asking the memory table first and then the tables. -/
theorem getFirst_eq
    (answers : AnswerLayers checksum sstables layers)
    (memtable : MemTable) (key : Bytes) :
    (match memtable.get key with
      | some value => .ok (some value)
      | none => getFromTables checksum key sstables) =
      (.ok ((SortedMap.stack (memtable.entries :: layers)).get key) :
        Checked (Option Bytes)) := by
  have found : memtable.get key = memtable.entries.get key := rfl
  rw [SortedMap.stack, SortedMap.get_overlay, found,
    getFromTables_eq answers]
  cases memtable.entries.get key with
  | some value => rfl
  | none => rfl

theorem mergeTables_eq
    (answers : AnswerLayers checksum sstables layers) (stem : Bytes) :
    sstables.reverse.foldlM (mergeTable stem) SortedMap.empty =
      .ok ((SortedMap.stack layers).select
        (fun key => decide (stem <+: key))) := by
  induction answers with
  | nil => rfl
  | @cons sst layer sstables layers first others induction =>
      have selected : startingWith stem layer.entries =
          (layer.select (fun key => decide (stem <+: key))).entries :=
        rfl
      rw [List.reverse_cons, List.foldlM_append, induction, ok_bind,
        List.foldlM_cons, mergeTable, first.scanPrefix stem, ok_bind,
        selected, SortedMap.stack, SortedMap.select_overlay]
      rfl

/-- A scan selects from the whole map. -/
theorem mergeScan_eq
    (answers : AnswerLayers checksum sstables layers)
    (memtable : MemTable) (stem : Bytes) :
    mergeScan stem memtable sstables =
      .ok (startingWith stem
        (SortedMap.stack (memtable.entries :: layers)).entries) := by
  have selected : startingWith stem memtable.entries.entries =
      (memtable.entries.select
        (fun key => decide (stem <+: key))).entries :=
    rfl
  have whole := SortedMap.select_overlay
    (fun key => decide (stem <+: key)) (SortedMap.stack layers)
    memtable.entries
  unfold mergeScan
  rw [mergeTables_eq answers, ok_bind, memtable.scan_eq_filter, selected]
  exact congrArg (fun map => Except.ok map.entries) whole.symm

end Reading

section Snapshots

variable {checksum : Checksum} {map : SortedMap Bytes Bytes}

theorem ReadOnlyTransaction.get_eq {reader : ReadOnlyTransaction}
    (shown : Shows checksum reader.snapshot map) (key : Bytes) :
    reader.get checksum key = .ok (map.get key) := by
  rcases shown with ⟨layers, answers, rfl⟩
  exact getFirst_eq answers reader.snapshot.active key

theorem ReadOnlyTransaction.scan_eq {reader : ReadOnlyTransaction}
    (shown : Shows checksum reader.snapshot map) (stem : Bytes) :
    reader.scan stem = .ok (startingWith stem map.entries) := by
  rcases shown with ⟨layers, answers, rfl⟩
  exact mergeScan_eq answers reader.snapshot.active stem

/-- A transaction reads what it would publish. -/
theorem ReadWriteTransaction.get_eq {tx : ReadWriteTransaction}
    (shown : Shows checksum tx.published map) (key : Bytes) :
    tx.get checksum key = .ok (map.get key) := by
  rcases shown with ⟨layers, answers, rfl⟩
  exact getFirst_eq answers tx.fork key

theorem ReadWriteTransaction.scan_eq {tx : ReadWriteTransaction}
    (shown : Shows checksum tx.published map) (stem : Bytes) :
    tx.scan stem = .ok (startingWith stem map.entries) := by
  rcases shown with ⟨layers, answers, rfl⟩
  exact mergeScan_eq answers tx.fork stem

/-- Insertions into the memory table are insertions into the map. -/
theorem Shows.insertAll {readable : ReadableState}
    (shown : Shows checksum readable map) {fork : MemTable}
    {inserts : List Entry}
    (forked : fork.entries =
      readable.active.entries.insertAll inserts) :
    Shows checksum ⟨fork, readable.sstables⟩ (map.insertAll inserts) := by
  rcases shown with ⟨layers, answers, rfl⟩
  refine ⟨layers, answers, ?_⟩
  rw [forked, SortedMap.stack, SortedMap.stack,
    SortedMap.overlay_insertAll]

/-- Moving the memory table into a table of its own changes nothing. -/
theorem Shows.flush {tx : ReadWriteTransaction}
    (shown : Shows checksum tx.published map) {sst : SSTableReader}
    (answers : Answers checksum sst tx.fork.entries.entries) :
    Shows checksum (tx.flushed sst) map := by
  rcases shown with ⟨layers, others, rfl⟩
  exact ⟨tx.fork.entries :: layers, List.Forall₂.cons answers others,
    rfl⟩

end Snapshots

end Cdoc
