import Cdoc.Positions

/-!
# The leaves of a mutation

A mutation stands for its leaves: the places which it assigns to or deletes,
from left to right.  The walk of the source does nothing but hand them to the
callback.  This holds of a walk which is given up as well: a path, a value or
the callback itself may fail, and then the leaves in front of the failure
have been handed over.
-/

namespace Cdoc

open Cdoc.Foundation
open Cdoc.Path
open Cdoc.Sst

/-- A leaf of a mutation: a place, and its value if it can be encoded. -/
structure Leaf where
  place : List Segment
  value : Option Bytes
deriving DecidableEq, Repr

/-- What is inserted for a leaf. -/
structure Leaf.Means (call : Entry) (leaf : Leaf) : Prop where
  acceptable : ∀ segment ∈ leaf.place, segment.Acceptable
  key : call.1 = Segment.lwwBytes leaf.place
  value : leaf.value = some call.2

namespace Mutation

section Leaves

variable {Value ε : Type} (intoWriter : Value → Except ε Bytes)

mutual

/-- The leaves of a mutation at the given place. -/
def leavesBelow (above : List Segment) : Mutation Value → List Leaf
  | .apply segment op => [⟨above ++ [segment], op.value intoWriter⟩]
  | .nested segment mutations => leavesAll (above ++ [segment]) mutations
  | .compose mutations => leavesAll above mutations

/-- The leaves of mutations at one place, in order. -/
def leavesAll (above : List Segment) : List (Mutation Value) → List Leaf
  | [] => []
  | mutation :: mutations =>
      leavesBelow above mutation ++ leavesAll above mutations

end

/-- The leaves of a mutation in order. -/
def leaves (self : Mutation Value) : List Leaf :=
  leavesBelow intoWriter [] self

end Leaves

/-! ## The walk -/

section Walk

variable {Value ε σ : Type} (intoWriter : Value → Except ε Bytes)
variable (f : Bytes → Bytes → Descent (Error ε) σ Unit)

/-- The buffer of the writer holds the given segments. -/
structure Holds (above : List Segment) (w : PathWriter) : Prop where
  buffer : w.writer = Segment.pathBytes above
  acceptable : ∀ segment ∈ above, segment.Acceptable

theorem Holds.write {above : List Segment} {w result : PathWriter}
    (holds : Holds above w) {segment : Segment}
    (written : segment.write w = .ok (.ok result)) :
    Holds (above ++ [segment]) result := by
  constructor
  · rw [Segment.writer_of_write written, holds.buffer,
      Segment.pathBytes_concat]
  · rw [List.forall_mem_append]
    refine ⟨holds.acceptable, ?_⟩
    intro other member
    rw [List.mem_singleton.mp member]
    exact (Segment.write_eq_ok_iff.mp written).1

/-- Functions of a path do not call back. -/
theorem delegates_orPath {α : Type} {result : Checked (Except PathError α)}
    {post : α → Prop}
    (proper : ∀ value, result = .ok (.ok value) → post value) :
    Delegates Leaf.Means (fun call => f call.1 call.2)
      (orPath result) [] post := by
  cases result with
  | error panic => exact delegates_throw _ _
  | ok outcome =>
      cases outcome with
      | error failure => exact delegates_throw _ _
      | ok value => exact delegates_pure (proper value rfl)

theorem delegates_leaf {place : List Segment} {w : PathWriter}
    (holds : Holds place w) (value : Bytes) :
    Delegates Leaf.Means (fun call => f call.1 call.2)
      (do f (← orPath (.ok w.lww)) value; return w)
      [⟨place, some value⟩] (fun out => out = w) := by
  have key : w.lww = .ok (Segment.lwwBytes place) := by
    rw [PathWriter.lww, holds.buffer]
    rfl
  rw [key]
  have call : Delegates Leaf.Means (fun call => f call.1 call.2)
      (f (Segment.lwwBytes place) value) [⟨place, some value⟩]
      (fun _ => True) :=
    @delegates_call _ _ _ _ Leaf.Means
      (fun call => f call.1 call.2) (Segment.lwwBytes place, value) _
      ⟨holds.acceptable, rfl, rfl⟩
  exact call.bind fun _ _ => delegates_pure rfl

theorem delegates_apply {above : List Segment} (segment : Segment)
    (op : Op Value) {w : PathWriter} (holds : Holds above w) :
    Delegates Leaf.Means (fun call => f call.1 call.2)
      (forEachInternal intoWriter f (.apply segment op) w)
      (leavesBelow intoWriter above (.apply segment op))
      (Holds (above ++ [segment])) := by
  have written : Delegates Leaf.Means (fun call => f call.1 call.2)
      (orPath (segment.write w)) [] (Holds (above ++ [segment])) :=
    delegates_orPath f fun out accepted => holds.write accepted
  cases op with
  | delete =>
      simp only [forEachInternal, leavesBelow, Op.value]
      refine written.bind fun out extended => ?_
      refine (delegates_leaf f extended []).imp ?_
      rintro last rfl
      exact extended
  | assign value =>
      simp only [forEachInternal, leavesBelow, Op.value]
      refine written.bind fun out extended => ?_
      cases intoWriter value with
      | error failure => exact delegates_throw _ _
      | ok buf =>
          refine (delegates_leaf f extended buf).imp ?_
          rintro last rfl
          exact extended

/-- What a child has added to the buffer is cut off again. -/
theorem Holds.truncate {above below : List Segment} {w out : PathWriter}
    (holds : Holds above w) (extended : Holds (above ++ below) out) :
    Holds above (out.truncate w.writer.length) := by
  refine ⟨?_, holds.acceptable⟩
  rw [PathWriter.truncate, extended.buffer, holds.buffer]
  simp [Segment.pathBytes]

mutual

/-- A child leaves some segments behind those above it. -/
theorem delegates_forEachInternal :
    ∀ (mutation : Mutation Value) (above : List Segment) (w : PathWriter),
      Holds above w →
      Delegates Leaf.Means (fun call => f call.1 call.2)
        (forEachInternal intoWriter f mutation w)
        (leavesBelow intoWriter above mutation)
        (fun out => ∃ below, Holds (above ++ below) out)
  | .apply segment op, above, w, holds =>
      (delegates_apply intoWriter f segment op holds).imp
        fun _ extended => ⟨[segment], extended⟩
  | .nested segment mutations, above, w, holds => by
      have written : Delegates Leaf.Means (fun call => f call.1 call.2)
          (orPath (segment.write w)) [] (Holds (above ++ [segment])) :=
        delegates_orPath f fun out accepted => holds.write accepted
      simp only [forEachInternal, leavesBelow]
      refine written.bind fun out extended => ?_
      exact (delegates_forEachAll mutations _ out extended).imp
        fun _ same => ⟨[segment], same⟩
  | .compose mutations, above, w, holds => by
      simp only [forEachInternal, leavesBelow]
      refine (delegates_forEachAll mutations above w holds).imp ?_
      intro last same
      exact ⟨[], by rwa [List.append_nil]⟩

theorem delegates_forEachAll :
    ∀ (mutations : List (Mutation Value)) (above : List Segment)
      (w : PathWriter), Holds above w →
      Delegates Leaf.Means (fun call => f call.1 call.2)
        (forEachAll intoWriter f mutations w.writer.length w)
        (leavesAll intoWriter above mutations) (Holds above)
  | [], above, w, holds => delegates_pure holds
  | mutation :: mutations, above, w, holds => by
      simp only [forEachAll, leavesAll]
      refine (delegates_forEachInternal mutation above w holds).bind ?_
      rintro out ⟨below, extended⟩
      have restored := holds.truncate extended
      have same : w.writer.length =
          (out.truncate w.writer.length).writer.length := by
        rw [restored.buffer, holds.buffer]
      have others := delegates_forEachAll mutations above
        (out.truncate w.writer.length) restored
      rwa [← same] at others

end

/-- All that `for_each` does is to hand over the leaves in order. -/
theorem delegates_forEach (self : Mutation Value) :
    Delegates Leaf.Means (fun call => f call.1 call.2)
      (self.forEach intoWriter f) (self.leaves intoWriter) (fun _ => True) := by
  have started : Holds [] (PathWriter.new [] 0) :=
    ⟨rfl, fun _ member => by cases member⟩
  have returns : Delegates Leaf.Means (fun call => f call.1 call.2)
      (pure ()) [] (fun _ => True) :=
    delegates_pure trivial
  have delegates := (delegates_forEachInternal intoWriter f self []
    (PathWriter.new [] 0) started).bind (fun _ _ => returns)
  rwa [List.append_nil] at delegates

end Walk

end Mutation

end Cdoc
