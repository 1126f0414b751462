import Cdoc.Path.WideSegments
import Cdoc.Positions

/-!
# The order of positions

A scan lists positions in the order of their keys.  It walks through the tree
of a document: the children of a node come in the order of their segments,
each with everything below it, and the value of the node itself stands behind
its sequence and before its fields.  This needs no canonical indices: all
which the writer accepts are ordered so.
-/

namespace Cdoc

open Cdoc.Foundation
open Cdoc.Path

namespace Segment

/-- Segments are compared by their bytes. -/
def cmp (self other : Segment) : Ordering :=
  compareOfLessAndEq self.bytes other.bytes

theorem cmp_eq_lt_iff {left right : Segment} :
    left.cmp right = .lt ↔ left.bytes < right.bytes :=
  compareOfLessAndEq_eq_lt

theorem cmp_eq_eq_iff {left right : Segment} :
    left.cmp right = .eq ↔ left.bytes = right.bytes :=
  compareOfLessAndEq_eq_eq le_refl not_le

/-- A field with a name. -/
def Named : Segment → Prop
  | .field name => name ≠ ""
  | .fractionalIndex _ => False

/-- The walk comes to the first position before the second one. -/
def Precedes : List Segment → List Segment → Prop
  | [], [] => False
  | [], child :: _ => child.Named
  | child :: _, [] => ¬ child.Named
  | left :: lefts, right :: rights =>
      left.cmp right = .lt ∨ left.cmp right = .eq ∧ Precedes lefts rights

end Segment

/-! ## The first byte of a segment -/

namespace Path

theorem wideBytes_head {wides : List WideSegment} {first : UInt8}
    {rest : Bytes} (bytes : wideBytes wides = first :: rest) :
    1 ≤ first.toNat ∧ first.toNat ≤ 4 := by
  cases wides with
  | nil => cases bytes
  | cons wide wides =>
      obtain ⟨byte, others, shape, bounds⟩ := wide.exists_bytes
      rw [wideBytes_cons, shape] at bytes
      cases bytes
      exact bounds

/-- Behind a common beginning an index goes on with whole segments. -/
theorem exists_wideBytes_of_append {left whole : List WideSegment}
    {rest : Bytes} (same : wideBytes whole = wideBytes left ++ rest) :
    ∃ others, rest = wideBytes others := by
  induction left generalizing whole with
  | nil => exact ⟨whole, same.symm⟩
  | cons head tail induction =>
      cases whole with
      | nil =>
          have long := head.two_le_length_bytes
          have lengths := congrArg List.length same
          rw [wideBytes_cons, List.append_assoc, List.length_append]
            at lengths
          have none : (wideBytes []).length = 0 := rfl
          omega
      | cons first others =>
          rw [wideBytes_cons, wideBytes_cons, List.append_assoc] at same
          have parsed := first.parse_append (wideBytes others)
          rw [same, head.parse_append] at parsed
          simp only [Except.ok.injEq, Option.some.injEq, Prod.mk.injEq]
            at parsed
          exact induction parsed.2.symm

end Path

namespace Segment

/-- The first byte of a name, and that of an index. -/
theorem first_of_bytes {segment : Segment} (acceptable : segment.Acceptable)
    {first : UInt8} {rest : Bytes} (begins : segment.bytes = first :: rest) :
    segment.Named ∧ 32 ≤ first.toNat ∨
      ¬ segment.Named ∧ 1 ≤ first.toNat ∧ first.toNat ≤ 4 := by
  cases segment with
  | field name =>
      have member : first ∈ strBytes name := by
        rw [show strBytes name = first :: rest from begins]
        exact List.mem_cons_self
      refine .inl ⟨?_, UInt8.le_iff_toNat_le.mp
        (Field.isValid_iff.mp acceptable first member)⟩
      rintro rfl
      cases member
  | fractionalIndex index =>
      obtain ⟨wides, rfl⟩ :=
        FractionalIndex.exists_wideBytes_of_new acceptable
      exact .inr ⟨id, wideBytes_head begins⟩

/-- The bytes of a segment go on behind those of another one above zero. -/
theorem delimiter_lt_of_append {left right : Segment}
    (leftAcceptable : left.Acceptable) (rightAcceptable : right.Acceptable)
    {byte : UInt8} {rest : Bytes}
    (longer : right.bytes = left.bytes ++ byte :: rest) :
    DELIMITER < byte := by
  show 0 < byte.toNat
  cases right with
  | field name =>
      have member : byte ∈ strBytes name := by
        rw [show strBytes name = _ from longer]
        simp
      have above := UInt8.le_iff_toNat_le.mp
        (Field.isValid_iff.mp rightAcceptable byte member)
      exact Nat.lt_of_lt_of_le (by decide) above
  | fractionalIndex index =>
      obtain ⟨whole, rfl⟩ :=
        FractionalIndex.exists_wideBytes_of_new rightAcceptable
      have beginning : ∃ wides, left.bytes = wideBytes wides := by
        cases left with
        | fractionalIndex bytes =>
            exact FractionalIndex.exists_wideBytes_of_new leftAcceptable
        | field name =>
            cases begins : strBytes name with
            | nil => exact ⟨[], begins⟩
            | cons first others =>
                have small := wideBytes_head (longer.trans
                  (congrArg (· ++ byte :: rest) begins))
                have member : first ∈ strBytes name := by
                  rw [begins]
                  exact List.mem_cons_self
                have large := UInt8.le_iff_toNat_le.mp
                  (Field.isValid_iff.mp leftAcceptable first member)
                exact absurd (le_trans large small.2) (by decide)
      obtain ⟨wides, same⟩ := beginning
      rw [same] at longer
      obtain ⟨others, goesOn⟩ := exists_wideBytes_of_append longer
      exact (wideBytes_head goesOn.symm).1

/-! ## Keys in order -/

theorem lt_of_delimited {left right : Bytes} (less : left < right)
    (above : ∀ byte rest, right = left ++ byte :: rest → DELIMITER < byte)
    (leftRest rightRest : Bytes) :
    left ++ DELIMITER :: leftRest < right ++ DELIMITER :: rightRest := by
  induction left generalizing right with
  | nil =>
      cases right with
      | nil => exact absurd less (lt_irrefl _)
      | cons byte rest =>
          exact List.cons_lt_cons_iff.mpr (.inl (above byte rest rfl))
  | cons head tail induction =>
      cases right with
      | nil => cases less
      | cons byte rest =>
          rcases List.cons_lt_cons_iff.mp less with smaller | ⟨rfl, behind⟩
          · exact List.cons_lt_cons_iff.mpr (.inl smaller)
          · refine List.cons_lt_cons_iff.mpr (.inr ⟨rfl, ?_⟩)
            apply induction behind
            rintro next others rfl
            exact above next others rfl

/-- Segments with different bytes decide the order of what is behind them. -/
theorem delimited_lt_iff {left right : Segment}
    (leftAcceptable : left.Acceptable) (rightAcceptable : right.Acceptable)
    (different : left.bytes ≠ right.bytes) (leftRest rightRest : Bytes) :
    left.bytes ++ DELIMITER :: leftRest <
        right.bytes ++ DELIMITER :: rightRest ↔
      left.bytes < right.bytes := by
  rcases lt_or_gt_of_ne different with less | greater
  · exact iff_of_true (lt_of_delimited less (fun _ _ longer =>
      delimiter_lt_of_append leftAcceptable rightAcceptable longer) _ _) less
  · exact iff_of_false (lt_of_delimited greater (fun _ _ longer =>
      delimiter_lt_of_append rightAcceptable leftAcceptable longer)
      _ _).asymm greater.asymm

/-- The key of a position behind its first delimiter. -/
def inner : List Segment → Bytes
  | [] => [TERMINATOR_LWW]
  | segment :: segments => segment.bytes ++ DELIMITER :: inner segments

theorem lwwBytes_eq_inner (segments : List Segment) :
    lwwBytes segments = DELIMITER :: inner segments := by
  induction segments with
  | nil => rfl
  | cons segment segments induction =>
      rw [inner, ← induction]
      simp [lwwBytes, pathBytes]

/-- Where the value of a node stands among what is below it. -/
theorem inner_child {child : Segment} (acceptable : child.Acceptable)
    (others : List Segment) :
    (inner [] < inner (child :: others) ↔ child.Named) ∧
      (inner (child :: others) < inner [] ↔ ¬ child.Named) := by
  have compare : ∃ first rest, inner (child :: others) = first :: rest ∧
      (child.Named ∧ TERMINATOR_LWW < first ∨
        ¬ child.Named ∧ first < TERMINATOR_LWW) := by
    cases begins : child.bytes with
    | nil =>
        refine ⟨DELIMITER, inner others, by rw [inner, begins]; rfl,
          .inr ⟨fun named => ?_, by decide⟩⟩
        cases child with
        | field name => exact named (strBytes_eq_nil_iff.mp begins)
        | fractionalIndex index => exact named
    | cons first rest =>
        refine ⟨first, rest ++ DELIMITER :: inner others,
          by rw [inner, begins]; rfl, ?_⟩
        rcases first_of_bytes acceptable begins with
          ⟨named, large⟩ | ⟨unnamed, -, small⟩
        · exact .inl ⟨named, UInt8.lt_iff_toNat_lt.mpr
            (Nat.lt_of_lt_of_le (by decide) large)⟩
        · exact .inr ⟨unnamed, UInt8.lt_iff_toNat_lt.mpr
            (Nat.lt_of_le_of_lt small (by decide))⟩
  obtain ⟨first, rest, shape, order⟩ := compare
  rw [shape, inner]
  rcases order with ⟨named, less⟩ | ⟨unnamed, less⟩
  · exact ⟨iff_of_true (List.cons_lt_cons_iff.mpr (.inl less)) named,
      iff_of_false (asymm (List.cons_lt_cons_iff.mpr (.inl less)))
        (not_not.mpr named)⟩
  · exact ⟨iff_of_false (asymm (List.cons_lt_cons_iff.mpr (.inl less)))
      unnamed, iff_of_true (List.cons_lt_cons_iff.mpr (.inl less)) unnamed⟩

/-- By induction along both positions, segment by segment. -/
theorem inner_lt_iff_precedes {left right : List Segment}
    (leftAcceptable : ∀ segment ∈ left, segment.Acceptable)
    (rightAcceptable : ∀ segment ∈ right, segment.Acceptable) :
    inner left < inner right ↔ Precedes left right := by
  induction left generalizing right with
  | nil =>
      cases right with
      | nil => exact iff_of_false (lt_irrefl _) id
      | cons child others =>
          exact (inner_child (rightAcceptable child
            List.mem_cons_self) others).1
  | cons head tail induction =>
      obtain ⟨headAcceptable, tailAcceptable⟩ :=
        List.forall_mem_cons.mp leftAcceptable
      cases right with
      | nil => exact (inner_child headAcceptable tail).2
      | cons child others =>
          obtain ⟨childAcceptable, othersAcceptable⟩ :=
            List.forall_mem_cons.mp rightAcceptable
          rw [Precedes, cmp_eq_lt_iff, cmp_eq_eq_iff, inner, inner]
          by_cases same : head.bytes = child.bytes
          · rw [same, append_lt_append_iff, List.cons_lt_cons_iff,
              induction tailAcceptable othersAcceptable]
            simp
          · rw [delimited_lt_iff headAcceptable childAcceptable same]
            simp [same]

/--
The keys of two positions are in the order of a walk through the document.
-/
theorem lwwKey_lt_iff_precedes {left right : List Segment}
    {leftKey rightKey : Bytes}
    (leftWritten : lwwKey left = .ok (.ok leftKey))
    (rightWritten : lwwKey right = .ok (.ok rightKey)) :
    leftKey < rightKey ↔ Precedes left right := by
  obtain ⟨leftAcceptable, rfl⟩ := lwwKey_eq_ok leftWritten
  obtain ⟨rightAcceptable, rfl⟩ := lwwKey_eq_ok rightWritten
  rw [lwwBytes_eq_inner, lwwBytes_eq_inner, List.cons_lt_cons_iff,
    inner_lt_iff_precedes leftAcceptable rightAcceptable]
  simp

/-- An element of a sequence, before the value of the sequence itself. -/
theorem lwwKey_lt_iff_precedes_element :
    ∃ leftKey rightKey,
      lwwKey [.field "a", .fractionalIndex [2, 0, 7, 1, 2]] =
          .ok (.ok leftKey) ∧
        lwwKey [.field "a"] = .ok (.ok rightKey) ∧ leftKey < rightKey := by
  have leftWritten : lwwKey [.field "a",
      .fractionalIndex [2, 0, 7, 1, 2]] =
      .ok (.ok [0, 97, 0, 2, 0, 7, 1, 2, 0, 30]) := by
    decide
  have rightWritten : lwwKey [.field "a"] =
      .ok (.ok [0, 97, 0, 30]) := by
    decide
  exact ⟨_, _, leftWritten, rightWritten,
    (lwwKey_lt_iff_precedes leftWritten rightWritten).mpr
      (.inr ⟨rfl, id⟩)⟩

end Segment

end Cdoc
