import Cdoc.Isolation
import Cdoc.Path.KeyOrder

/-!
# Scanning a subtree

A document is stored under the bytes of its paths.  The bytes of a node and
one more delimiter start the keys at and below that node, and scans select
by what a key starts with.  No scan of a subtree therefore returns an entry
of a sibling, in the memory table, in a written table, or in a snapshot of
the database.
-/

namespace Cdoc

open Cdoc.Foundation
open Cdoc.Path
open Cdoc.Sst

/--
Some of the entries, in their order.  Among the entries of complete paths
they are those at and below a node.
-/
structure SelectsSubtree (elements : List Element)
    (entries result : List Entry) : Prop where
  sublist : result.Sublist entries
  mem_iff : ∀ (path : DocumentPath) (bytes value : Bytes),
    path.write = .ok bytes →
      ((bytes, value) ∈ result ↔
        (bytes, value) ∈ entries ∧ ProperPrefix elements path)

theorem selectsSubtree_startingWith {elements : List Element}
    {node : Bytes} (nodeWritten : writeSubtree elements = .ok node)
    (entries : List Entry) :
    SelectsSubtree elements entries
      (startingWith (node ++ [DELIMITER]) entries) where
  sublist := List.filter_sublist
  mem_iff path bytes value written := by
    rw [mem_startingWith,
      DocumentPath.delimited_prefix_iff nodeWritten written]

/--
The bytes of a node and a delimiter start exactly the complete paths at and
below the node.  Scans for these bytes select the subtree.
-/
theorem scan_subtree {elements : List Element} {node : Bytes}
    (nodeWritten : writeSubtree elements = .ok node) :
    (∀ (path : DocumentPath) (bytes : Bytes), path.write = .ok bytes →
      (node ++ [DELIMITER] <+: bytes ↔ ProperPrefix elements path)) ∧
    (∀ memtable : MemTable,
      SelectsSubtree elements memtable.iter
        (memtable.scan (node ++ [DELIMITER]))) ∧
    (∀ (checksum : Checksum) (minTs maxTs : Timestamp)
        (entries : List Entry) (file : Bytes),
      Increasing entries → (∀ entry ∈ entries, Fits entry) →
      writeTable checksum minTs maxTs entries = .ok file →
      ∃ reader result,
        SSTableReader.openTable file = .ok (.ok reader) ∧
        reader.scanPrefix (node ++ [DELIMITER]) = .ok result ∧
        SelectsSubtree elements entries result) ∧
    ∀ (checksum : Checksum) (reader : ReadOnlyTransaction)
        (map : SortedMap Bytes Bytes),
      Shows checksum reader.snapshot map →
      ∃ result, reader.scan (node ++ [DELIMITER]) = .ok result ∧
        SelectsSubtree elements map.entries result := by
  refine ⟨?_, ?_, ?_, ?_⟩
  · intro path bytes written
    exact DocumentPath.delimited_prefix_iff nodeWritten written
  · intro memtable
    rw [memtable.scan_eq_filter]
    exact selectsSubtree_startingWith nodeWritten memtable.iter
  · intro checksum minTs maxTs entries file increasing fits written
    rcases answers_of_written increasing fits written with
      ⟨reader, opened, answers⟩
    exact ⟨reader, _, opened, answers.scanPrefix _,
      selectsSubtree_startingWith nodeWritten entries⟩
  · intro checksum reader map shown
    exact ⟨_, ReadOnlyTransaction.scan_eq shown _,
      selectsSubtree_startingWith nodeWritten map.entries⟩

/-- The subtree of the field `a` has no entry of its sibling `ab`. -/
theorem scan_subtree_siblings :
    ∃ node leaf sibling : Bytes,
      writeSubtree [.field "a" (by decide)] = .ok node ∧
      (DocumentPath.mk [.field "a" (by decide), .field "b" (by decide)]
        .lww).write = .ok leaf ∧
      (DocumentPath.mk [.field "ab" (by decide)] .lww).write =
        .ok sibling ∧
      node <+: sibling ∧
      node ++ [DELIMITER] <+: leaf ∧
      ¬ node ++ [DELIMITER] <+: sibling ∧
      ¬ ProperPrefix [.field "a" (by decide)]
        (DocumentPath.mk [.field "ab" (by decide)] .lww) := by
  have nodeWritten : writeSubtree [.field "a" (by decide)] =
      .ok [0, 97] := by
    decide
  have leafWritten : (DocumentPath.mk
      [.field "a" (by decide), .field "b" (by decide)] .lww).write =
        .ok [0, 97, 0, 98, 0, 30] := by
    decide
  have siblingWritten : (DocumentPath.mk
      [.field "ab" (by decide)] .lww).write =
        .ok [0, 97, 98, 0, 30] := by
    decide
  have inside := (scan_subtree nodeWritten).1 _ _ leafWritten
  have outside := (scan_subtree nodeWritten).1 _ _ siblingWritten
  have apart : ¬ ([0, 97] ++ [DELIMITER] : Bytes) <+: [0, 97, 98, 0, 30] := by
    decide
  refine ⟨_, _, _, nodeWritten, leafWritten, siblingWritten, by decide,
    inside.mpr ?_, apart, fun below => apart (outside.mpr below)⟩
  exact ⟨[.element (.field "b" (by decide)), .tail .lww], by simp, rfl⟩

end Cdoc
