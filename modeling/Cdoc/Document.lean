import Cdoc.Isolation
import Cdoc.Leaves

/-!
# Documents

What the store is for: a document gives a value to some of its positions.  An
assignment changes one position, a deletion leaves the empty value there, and
a mutation changes a document as its tree is read, without paths, keys or a
table.

A map stands for the document which has the values of the keys of its
positions.  Inserting the leaves of a mutation in order is the same as
carrying it out on the document.  The keys below a node share a prefix with
no others, so a scan returns the values below the node.
-/

namespace Cdoc

open Cdoc.Foundation
open Cdoc.Path
open Cdoc.Sst

/-! ## Documents and mutations -/

/-- A list of segments for which there may be a key. -/
structure Position where
  segments : List Segment
  acceptable : ∀ segment ∈ segments, segment.Acceptable

/-- The values of a document. -/
abbrev Document := Position → Option Bytes

instance (left right : Segment) :
    Decidable (Segment.Indistinct left right) :=
  inferInstanceAs (Decidable (_ ∨ _ ∧ _))

namespace Document

/-- No position has a value. -/
def empty : Document :=
  fun _ => none

/-- The document with a value at a place. -/
def assign (document : Document) (place : List Segment) (value : Bytes) :
    Document :=
  fun position =>
    if List.Forall₂ Segment.Indistinct place position.segments then
      some value
    else
      document position

end Document

/-- The document after a leaf; a leaf whose value fails to encode leaves it. -/
def Document.put (document : Document) (leaf : Leaf) : Document :=
  match leaf.value with
  | some value => document.assign leaf.place value
  | none => document

namespace Mutation

variable {Value ε : Type} (intoWriter : Value → Except ε Bytes)

mutual

/-- A document after a mutation below the given segments. -/
def carryBelow (above : List Segment) :
    Mutation Value → Document → Document
  | .apply segment op, document =>
      document.put ⟨above ++ [segment], op.value intoWriter⟩
  | .nested segment mutations, document =>
      carryAll (above ++ [segment]) mutations document
  | .compose mutations, document => carryAll above mutations document

/-- The document after mutations below the given place, in order. -/
def carryAll (above : List Segment) :
    List (Mutation Value) → Document → Document
  | [], document => document
  | mutation :: mutations, document =>
      carryAll above mutations (carryBelow above mutation document)

end

/-- The document which a mutation makes of a document. -/
def carry (self : Mutation Value) (document : Document) : Document :=
  carryBelow intoWriter [] self document

mutual

theorem carryBelow_eq_foldl (above : List Segment) :
    ∀ (mutation : Mutation Value) (document : Document),
      carryBelow intoWriter above mutation document =
        (leavesBelow intoWriter above mutation).foldl Document.put document
  | .apply segment op, document => rfl
  | .nested segment mutations, document => by
      rw [carryBelow, leavesBelow]
      exact carryAll_eq_foldl (above ++ [segment]) mutations document
  | .compose mutations, document => by
      rw [carryBelow, leavesBelow]
      exact carryAll_eq_foldl above mutations document

theorem carryAll_eq_foldl (above : List Segment) :
    ∀ (mutations : List (Mutation Value)) (document : Document),
      carryAll intoWriter above mutations document =
        (leavesAll intoWriter above mutations).foldl Document.put document
  | [], document => rfl
  | mutation :: mutations, document => by
      rw [carryAll, leavesAll, List.foldl_append,
        carryBelow_eq_foldl above mutation,
        carryAll_eq_foldl above mutations]

end

theorem carry_eq_foldl (self : Mutation Value) (document : Document) :
    self.carry intoWriter document =
      (self.leaves intoWriter).foldl Document.put document :=
  carryBelow_eq_foldl intoWriter [] self document

end Mutation

/-! ## Maps which stand for documents -/

/-- The document whose values a map has under the keys of the positions. -/
def documentOf (map : SortedMap Bytes Bytes) : Document :=
  fun position => map.get (Segment.lwwBytes position.segments)

/-- Every key is the key of a position. -/
def Documented (map : SortedMap Bytes Bytes) : Prop :=
  ∀ key value, map.get key = some value →
    ∃ position : Position, key = Segment.lwwBytes position.segments

theorem documented_empty : Documented SortedMap.empty := by
  intro key value found
  cases found

section Inserting

variable {map : SortedMap Bytes Bytes}

theorem documentOf_insert {call : Entry} {leaf : Leaf}
    (means : Leaf.Means call leaf) :
    documentOf (map.insert call.1 call.2) = (documentOf map).put leaf := by
  funext position
  have same := Segment.lwwBytes_eq_iff means.acceptable position.acceptable
  rw [documentOf, SortedMap.get_insert, Document.put, means.value, means.key]
  dsimp only [Document.assign]
  simp only [same]
  rfl

theorem Documented.insert (documented : Documented map) {call : Entry}
    {leaf : Leaf} (means : Leaf.Means call leaf) :
    Documented (map.insert call.1 call.2) := by
  intro key value found
  rw [SortedMap.get_insert] at found
  split at found
  · rename_i same
    exact ⟨⟨leaf.place, means.acceptable⟩, same.symm.trans means.key⟩
  · exact documented key value found

/-- Inserting entries for leaves puts the leaves into the document. -/
theorem documentOf_insertAll {calls : List Entry} {leaves : List Leaf}
    (means : List.Forall₂ Leaf.Means calls leaves) :
    documentOf (map.insertAll calls) =
      leaves.foldl Document.put (documentOf map) := by
  induction means generalizing map with
  | nil => rfl
  | cons first others induction =>
      show documentOf ((map.insert _ _).insertAll _) = _
      rw [induction, documentOf_insert first, List.foldl_cons]

theorem Documented.insertAll (documented : Documented map)
    {calls : List Entry} {leaves : List Leaf}
    (means : List.Forall₂ Leaf.Means calls leaves) :
    Documented (map.insertAll calls) := by
  induction means generalizing map with
  | nil => exact documented
  | cons first others induction => exact induction (documented.insert first)

end Inserting

/-! ## Below a node -/

/-- The position is the node or lies below it. -/
def Position.Below (position : Position) (node : List Segment) : Prop :=
  ∃ front rest, position.segments = front ++ rest ∧
    List.Forall₂ Segment.Indistinct node front

namespace Segment

/-- What stands behind the segments of a key. -/
theorem pathBytes_append_delimiter (segments : List Segment)
    (after : Bytes) :
    ∃ rest, pathBytes segments ++ DELIMITER :: after = DELIMITER :: rest := by
  cases segments with
  | nil => exact ⟨after, rfl⟩
  | cons head tail =>
      exact ⟨head.bytes ++ pathBytes tail ++ DELIMITER :: after, rfl⟩

/-- The reader takes one segment off the front of a key. -/
theorem next_pathBytes_cons {head : Segment} (acceptable : head.Acceptable)
    (tail : List Segment) (after : Bytes) :
    PathReader.next (pathBytes (head :: tail) ++ DELIMITER :: after) =
      .ok (some (.ok head.read.segment),
        pathBytes tail ++ DELIMITER :: after) := by
  obtain ⟨rest, shape⟩ := pathBytes_append_delimiter tail after
  have next := PathReader.next_element (accepted_read acceptable) rest
  rw [body_read, ← shape] at next
  rw [← next]
  simp [pathBytes]

theorem segment_read_ne_tail (segment : Segment) (terminator : Terminator) :
    segment.read.segment ≠ .tail terminator := by
  cases segment.read with
  | field name => intro same; cases same
  | index index => intro same; cases same

/--
The bytes of a node and a delimiter start the keys at and below the node,
and no others.
-/
theorem delimited_prefix_iff_below {node : List Segment}
    (acceptable : ∀ segment ∈ node, segment.Acceptable)
    (position : Position) :
    pathBytes node ++ [DELIMITER] <+: lwwBytes position.segments ↔
      position.Below node := by
  obtain ⟨segments, positionAcceptable⟩ := position
  show pathBytes node ++ [DELIMITER] <+: lwwBytes segments ↔
    ∃ front rest, segments = front ++ rest ∧
      List.Forall₂ Indistinct node front
  constructor
  · intro within
    induction node generalizing segments with
    | nil => exact ⟨[], segments, rfl, List.Forall₂.nil⟩
    | cons head tail induction =>
        obtain ⟨rest, whole⟩ := within
        rw [List.append_assoc, List.singleton_append] at whole
        have nextNode := next_pathBytes_cons
          (acceptable head List.mem_cons_self) tail rest
        rw [whole] at nextNode
        cases segments with
        | nil =>
            -- the key of the root holds the terminator alone
            have nextTail := PathReader.next_tail .lww
            have root : lwwBytes [] = DELIMITER :: Terminator.lww.body :=
              rfl
            rw [root, nextTail] at nextNode
            simp only [Except.ok.injEq, Prod.mk.injEq,
              Option.some.injEq] at nextNode
            exact absurd nextNode.1.symm (segment_read_ne_tail head _)
        | cons other others =>
            have nextOther := next_pathBytes_cons
              (positionAcceptable other List.mem_cons_self) others
              [TERMINATOR_LWW]
            rw [show pathBytes (other :: others) ++
              DELIMITER :: [TERMINATOR_LWW] = lwwBytes (other :: others)
              from rfl, nextNode] at nextOther
            simp only [Except.ok.injEq, Prod.mk.injEq,
              Option.some.injEq] at nextOther
            have behind : pathBytes tail ++ [DELIMITER] <+:
                lwwBytes others := by
              refine ⟨rest, ?_⟩
              rw [List.append_assoc, List.singleton_append]
              exact nextOther.2
            obtain ⟨front, below, rfl, indistinct⟩ := induction
              (fun segment member =>
                acceptable segment (List.mem_cons_of_mem _ member))
              others
              (fun segment member =>
                positionAcceptable segment (List.mem_cons_of_mem _ member))
              behind
            exact ⟨other :: front, below, rfl, List.Forall₂.cons
              (segment_read_eq_iff.mp nextOther.1) indistinct⟩
  · rintro ⟨front, rest, rfl, indistinct⟩
    obtain ⟨after, shape⟩ :=
      pathBytes_append_delimiter rest [TERMINATOR_LWW]
    refine ⟨after, ?_⟩
    have behind : lwwBytes (front ++ rest) =
        pathBytes front ++ (pathBytes rest ++
          DELIMITER :: [TERMINATOR_LWW]) := by
      simp [lwwBytes, pathBytes]
    rw [pathBytes_eq_of_indistinct indistinct, behind, shape]
    simp

end Segment

/-! ## Reading a document -/

/-- The bytes which a scan of a subtree asks for. -/
def subtreeStem (node : List Segment) :
    Checked (Except PathError Bytes) := do
  match ← Segment.writeAll node (PathWriter.new [] 0) with
  | .error failure => return .error failure
  | .ok w => return .ok (w.writer ++ [DELIMITER])

theorem subtreeStem_eq_ok {node : List Segment} {stem : Bytes}
    (written : subtreeStem node = .ok (.ok stem)) :
    (∀ segment ∈ node, segment.Acceptable) ∧
      stem = Segment.pathBytes node ++ [DELIMITER] := by
  rw [subtreeStem, bind_eq_ok_iff] at written
  obtain ⟨outcome, pushed, closed⟩ := written
  cases outcome with
  | error failure => cases closed
  | ok w =>
      obtain ⟨acceptable, buffer⟩ := Segment.writeAll_eq_ok pushed
      cases closed
      rw [buffer]
      exact ⟨acceptable, rfl⟩

/--
Lookups and scans which are those of a document: the key of a position has
its value, and a scan lists the values below a node and nothing else.
-/
structure ReadsDocument (get : Bytes → Checked (Option Bytes))
    (scan : Bytes → Checked (List Entry)) (document : Document) :
    Prop where
  get_eq : ∀ (position : Position) (key : Bytes),
    Segment.lwwKey position.segments = .ok (.ok key) →
      get key = .ok (document position)
  scan_eq : ∀ (node : List Segment) (stem : Bytes),
    subtreeStem node = .ok (.ok stem) →
      ∃ result, scan stem = .ok result ∧ Increasing result ∧
        (∀ entry ∈ result, ∃ position : Position,
          entry.1 = Segment.lwwBytes position.segments ∧
            document position = some entry.2 ∧ position.Below node) ∧
        ∀ (position : Position) (value : Bytes),
          document position = some value → position.Below node →
            (Segment.lwwBytes position.segments, value) ∈ result

/-- Reading a map whose keys belong to positions. -/
theorem ReadsAs.readsDocument {get : Bytes → Checked (Option Bytes)}
    {scan : Bytes → Checked (List Entry)} {map : SortedMap Bytes Bytes}
    (reads : ReadsAs get scan map) (documented : Documented map) :
    ReadsDocument get scan (documentOf map) where
  get_eq position key written := by
    obtain ⟨-, rfl⟩ := Segment.lwwKey_eq_ok written
    exact reads.get_eq _
  scan_eq node stem written := by
    obtain ⟨acceptable, rfl⟩ := subtreeStem_eq_ok written
    obtain ⟨result, scanned, increasing, selected⟩ := reads.scan_eq
      (Segment.pathBytes node ++ [DELIMITER])
    refine ⟨result, scanned, increasing, ?_, ?_⟩
    · rintro ⟨key, value⟩ member
      obtain ⟨found, within⟩ := (selected key value).mp member
      obtain ⟨position, rfl⟩ := documented key value found
      exact ⟨position, rfl, found,
        (Segment.delimited_prefix_iff_below acceptable position).mp within⟩
    · intro position value found below
      exact (selected _ _).mpr ⟨found,
        (Segment.delimited_prefix_iff_below acceptable position).mpr below⟩

end Cdoc
