import Cdoc.Flattening
import Cdoc.Path.KeyOrder
import Mathlib.Data.List.Forall2

/-!
# Positions and their keys

A position of a document is a list of segments, and its key is what the path
writer makes of them.  An element has no tag of its own: the bytes behind the
delimiter tell a field from an index and show where it ends.  The empty
string is the one body which is both a field and an accepted index.  Keys
therefore tell positions apart except for an empty index in the place of an
empty field.
-/

namespace Cdoc

open Cdoc.Foundation
open Cdoc.Path

namespace Segment

/-- The key of a position, built as `for_each` does. -/
def lwwKey (segments : List Segment) :
    Checked (Except PathError Bytes) := do
  match ← writeAll segments (PathWriter.new [] 0) with
  | .error failure => return .error failure
  | .ok w => return w.lww

/-- Equal, or an empty field and an empty index. -/
def Indistinct (left right : Segment) : Prop :=
  left = right ∨ left.bytes = [] ∧ right.bytes = []

/-! ## The bytes of a key -/

theorem lwwKey_eq_ok {segments : List Segment} {key : Bytes}
    (written : lwwKey segments = .ok (.ok key)) :
    (∀ segment ∈ segments, segment.Acceptable) ∧
      key = lwwBytes segments := by
  rw [lwwKey, bind_eq_ok_iff] at written
  obtain ⟨outcome, pushed, closed⟩ := written
  cases outcome with
  | error failure => cases closed
  | ok w =>
      obtain ⟨acceptable, buffer⟩ := writeAll_eq_ok pushed
      refine ⟨acceptable, ?_⟩
      cases closed
      rw [buffer]
      rfl

/-! ## Reading a key back -/

/-- The element which the reader takes a segment for. -/
def read (segment : Segment) : PathElement :=
  if segment.bytes = [] then .field "" else segment.element

theorem body_read (segment : Segment) :
    segment.read.body = segment.bytes := by
  unfold read
  split
  · rename_i empty
    rw [empty]
    decide
  · exact segment.body_element

theorem accepted_read {segment : Segment}
    (acceptable : segment.Acceptable) : segment.read.Accepted := by
  unfold read
  split
  · exact ⟨⟨[]⟩, by decide⟩
  · rename_i nonempty
    cases segment with
    | field name =>
        exact ⟨_, Field.new_eq_ok_iff.mpr ⟨acceptable, rfl⟩⟩
    | fractionalIndex bytes => exact ⟨nonempty, acceptable⟩

theorem lwwBytes_eq (segments : List Segment) :
    lwwBytes segments =
      elementBytes (segments.map read) ++
        DELIMITER :: Terminator.lww.body := by
  have bodies : pathBytes segments = elementBytes (segments.map read) := by
    simp [pathBytes, elementBytes, List.flatMap_map, body_read]
  rw [lwwBytes, bodies]
  rfl

/-- What the reader yields for a segment tells it from the others. -/
theorem segment_element_injective :
    Function.Injective fun segment : Segment => segment.element.segment := by
  intro left right equal
  have same : left.element = right.element :=
    PathElement.segment_injective equal
  cases left with
  | field name =>
      cases right with
      | field other => rw [PathElement.field.inj same]
      | fractionalIndex bytes => cases same
  | fractionalIndex bytes =>
      cases right with
      | field other => cases same
      | fractionalIndex others =>
          cases same
          rfl

/-- Nothing but an empty segment is read as an empty field. -/
theorem bytes_eq_nil_of_segment {segment : Segment}
    (empty : (PathElement.field "").segment = segment.element.segment) :
    segment.bytes = [] := by
  cases segment with
  | field name =>
      have same : strBytes "" = strBytes name := by
        simpa [element, PathElement.segment] using empty
      exact same.symm
  | fractionalIndex bytes => cases empty

/-- Segments which are read alike are equal or both empty. -/
theorem segment_read_eq_iff {left right : Segment} :
    left.read.segment = right.read.segment ↔ Indistinct left right := by
  unfold read Indistinct
  by_cases leftEmpty : left.bytes = []
  · by_cases rightEmpty : right.bytes = []
    · simp [leftEmpty, rightEmpty]
    · rw [if_pos leftEmpty, if_neg rightEmpty]
      refine iff_of_false ?_ ?_
      · intro same
        exact rightEmpty (bytes_eq_nil_of_segment same)
      · rintro (rfl | ⟨-, empty⟩)
        · exact rightEmpty leftEmpty
        · exact rightEmpty empty
  · by_cases rightEmpty : right.bytes = []
    · rw [if_neg leftEmpty, if_pos rightEmpty]
      refine iff_of_false ?_ ?_
      · intro same
        exact leftEmpty (bytes_eq_nil_of_segment same.symm)
      · rintro (rfl | ⟨empty, -⟩)
        · exact leftEmpty rightEmpty
        · exact leftEmpty empty
    · rw [if_neg leftEmpty, if_neg rightEmpty]
      simp [leftEmpty, segment_element_injective.eq_iff]

theorem forall₂_indistinct_iff {left right : List Segment} :
    List.Forall₂ Indistinct left right ↔
      left.map (fun segment => segment.read.segment) =
        right.map (fun segment => segment.read.segment) := by
  rw [← List.forall₂_eq_eq_eq, List.forall₂_map_left_iff,
    List.forall₂_map_right_iff]
  simp only [segment_read_eq_iff]

/-- The items of a key are those of its segments. -/
theorem items_lwwBytes {segments : List Segment}
    (acceptable : ∀ segment ∈ segments, segment.Acceptable)
    {rounds : Nat} (enough : segments.length + 1 < rounds) :
    PathReader.items rounds (lwwBytes segments) =
      .ok (segments.map (fun segment => .ok segment.read.segment) ++
        [.ok (.tail .lww)], []) := by
  have accepted : ∀ element ∈ segments.map read, element.Accepted := by
    rw [List.forall_mem_map]
    exact fun segment member => accepted_read (acceptable segment member)
  have items := PathReader.items_elementBytes accepted .lww
    (show (segments.map read).length + 1 < rounds by
      rwa [List.length_map])
  rwa [List.map_map, ← lwwBytes_eq] at items

theorem Indistinct.bytes_eq {left right : Segment}
    (indistinct : Indistinct left right) : left.bytes = right.bytes := by
  rcases indistinct with rfl | ⟨leftEmpty, rightEmpty⟩
  · rfl
  · rw [leftEmpty, rightEmpty]

theorem pathBytes_eq_of_indistinct {left right : List Segment}
    (indistinct : List.Forall₂ Indistinct left right) :
    pathBytes left = pathBytes right := by
  induction indistinct with
  | nil => rfl
  | cons same _ induction =>
      simp only [pathBytes, List.flatMap_cons] at induction ⊢
      rw [same.bytes_eq, induction]

/-- The reader tells the positions apart, or their keys are the same. -/
theorem lwwBytes_eq_iff {left right : List Segment}
    (leftAcceptable : ∀ segment ∈ left, segment.Acceptable)
    (rightAcceptable : ∀ segment ∈ right, segment.Acceptable) :
    lwwBytes left = lwwBytes right ↔
      List.Forall₂ Indistinct left right := by
  constructor
  · intro equal
    have leftItems := items_lwwBytes leftAcceptable
      (show left.length + 1 < left.length + right.length + 2 by omega)
    have rightItems := items_lwwBytes rightAcceptable
      (show right.length + 1 < left.length + right.length + 2 by omega)
    rw [equal, rightItems] at leftItems
    simp only [Except.ok.injEq, Prod.mk.injEq, and_true] at leftItems
    have segments := List.append_cancel_right leftItems
    have injective : Function.Injective
        (Except.ok : PathSegment → Except PathError PathSegment) :=
      fun _ _ => Except.ok.inj
    rw [forall₂_indistinct_iff, ← (List.map_injective_iff.mpr injective).eq_iff,
      List.map_map, List.map_map]
    exact segments.symm
  · intro indistinct
    rw [lwwBytes, lwwBytes, pathBytes_eq_of_indistinct indistinct]

/--
Two positions have different keys unless they only differ by empty indices
in the place of empty fields.
-/
theorem lwwKey_ne_iff {left right : List Segment} {leftKey rightKey : Bytes}
    (leftWritten : lwwKey left = .ok (.ok leftKey))
    (rightWritten : lwwKey right = .ok (.ok rightKey)) :
    leftKey ≠ rightKey ↔ ¬ List.Forall₂ Indistinct left right := by
  obtain ⟨leftAcceptable, rfl⟩ := lwwKey_eq_ok leftWritten
  obtain ⟨rightAcceptable, rfl⟩ := lwwKey_eq_ok rightWritten
  exact not_congr (lwwBytes_eq_iff leftAcceptable rightAcceptable)

/-- A field and an index below it, against the field alone. -/
theorem lwwKey_ne_iff_child :
    ∃ leftKey rightKey,
      lwwKey [.field "a", .fractionalIndex [1, 7, 1, 2]] =
          .ok (.ok leftKey) ∧
        lwwKey [.field "a"] = .ok (.ok rightKey) ∧
        leftKey ≠ rightKey := by
  have leftWritten : lwwKey [.field "a", .fractionalIndex [1, 7, 1, 2]] =
      .ok (.ok [0, 97, 0, 1, 7, 1, 2, 0, 30]) := by
    decide
  have rightWritten : lwwKey [.field "a"] =
      .ok (.ok [0, 97, 0, 30]) := by
    decide
  refine ⟨_, _, leftWritten, rightWritten,
    (lwwKey_ne_iff leftWritten rightWritten).mpr ?_⟩
  intro indistinct
  have lengths := indistinct.length_eq
  simp at lengths

/-- The empty field and the empty index have the same key. -/
theorem lwwKey_empty :
    [field ""] ≠ [fractionalIndex []] ∧
      lwwKey [.field ""] = .ok (.ok [0, 0, 30]) ∧
      lwwKey [.fractionalIndex []] = .ok (.ok [0, 0, 30]) := by
  decide

end Segment

end Cdoc
