import Cdoc.Mutation
import Cdoc.Path.Limit

/-!
# Flattening a mutation

A mutation stands for a list of keys and values: its leaves from left to
right, each under the segments above it.  `flat` is that list, by recursion
on the tree and without a writer.

The walk of the source has one buffer for the whole tree.  A leaf and a
nested node leave their segment behind, and the loop around them cuts the
buffer back.  What holds at every node is that the buffer starts with the
bytes of the segments above it, so the callback is given the entries of
`flat` in order, up to the first failure.
-/

namespace Cdoc

open Cdoc.Foundation
open Cdoc.Path

namespace Segment

/-- The segments, each behind a delimiter. -/
def pathBytes (segments : List Segment) : Bytes :=
  segments.flatMap fun segment => DELIMITER :: segment.bytes

/-- The key of a leaf below the given segments. -/
def lwwBytes (segments : List Segment) : Bytes :=
  pathBytes segments ++ [DELIMITER, TERMINATOR_LWW]

theorem pathBytes_concat (segments : List Segment) (segment : Segment) :
    pathBytes (segments ++ [segment]) =
      pathBytes segments ++ DELIMITER :: segment.bytes := by
  simp [pathBytes]

/-- The argument which the writer receives for a segment. -/
def element : Segment → PathElement
  | .field name => .field name
  | .fractionalIndex bytes => .index ⟨bytes⟩

theorem body_element (segment : Segment) :
    segment.element.body = segment.bytes := by
  cases segment <;> rfl

/-- What the validators of fields and of indices let through. -/
def Acceptable : Segment → Prop
  | .field name => Field.isValid name = true
  | .fractionalIndex bytes =>
      FractionalIndex.new bytes = .ok (some ⟨bytes⟩)

/-- A segment is written where it is acceptable and fits. -/
theorem write_eq_ok_iff {segment : Segment} {w result : PathWriter} :
    segment.write w = .ok (.ok result) ↔
      segment.Acceptable ∧
        w.written + (1 + segment.bytes.length) ≤ 32767 ∧
        result = ⟨w.writer ++ DELIMITER :: segment.bytes,
          w.written + segment.element.counted⟩ := by
  cases segment with
  | field name =>
      rw [show (field name).write w = .ok (w.push (.field name)) from rfl,
        Except.ok.injEq]
      exact PathWriter.push_eq_ok_iff
  | fractionalIndex bytes =>
      simp only [write, Acceptable]
      cases tried : FractionalIndex.new bytes with
      | error panic => simp
      | ok found =>
          cases found with
          | none => simp
          | some index =>
              obtain ⟨rfl, -⟩ := FractionalIndex.new_eq_some_iff.mp tried
              have pushed : w.push (.index ⟨bytes⟩) = .ok result ↔ _ :=
                PathWriter.push_eq_ok_iff
              simp only [ok_bind, pure_eq_ok, Except.ok.injEq]
              exact pushed

theorem writer_of_write {segment : Segment} {w result : PathWriter}
    (written : segment.write w = .ok (.ok result)) :
    result.writer = w.writer ++ DELIMITER :: segment.bytes := by
  obtain ⟨-, -, rfl⟩ := write_eq_ok_iff.mp written
  rfl

theorem writeAll_eq_ok {segments : List Segment} {w result : PathWriter}
    (written : writeAll segments w = .ok (.ok result)) :
    (∀ segment ∈ segments, segment.Acceptable) ∧
      result.writer = w.writer ++ pathBytes segments := by
  induction segments generalizing w with
  | nil =>
      cases written
      simp [pathBytes]
  | cons head tail induction =>
      rw [writeAll, bind_eq_ok_iff] at written
      obtain ⟨outcome, first, others⟩ := written
      cases outcome with
      | error failure => cases others
      | ok middle =>
          obtain ⟨acceptable, buffer⟩ := induction others
          rw [List.forall_mem_cons, buffer, writer_of_write first]
          refine ⟨⟨(write_eq_ok_iff.mp first).1, acceptable⟩, ?_⟩
          simp [pathBytes]

end Segment

/-- The bytes of the value, if there is an encoding of it. -/
def Op.value {Value ε : Type} (intoWriter : Value → Except ε Bytes) :
    Op Value → Option Bytes
  | .assign value => (intoWriter value).toOption
  | .delete => some []

namespace Mutation

variable {Value ε σ : Type} (intoWriter : Value → Except ε Bytes)

/-! ## The reference list -/

mutual

/-- The leaves of a mutation which stands below the given segments. -/
def flatBelow (above : List Segment) :
    Mutation Value → List (Bytes × Option Bytes)
  | .apply segment op =>
      [(Segment.lwwBytes (above ++ [segment]), op.value intoWriter)]
  | .nested segment mutations => flatAll (above ++ [segment]) mutations
  | .compose mutations => flatAll above mutations

/-- The entries of mutations below the given place, in order. -/
def flatAll (above : List Segment) :
    List (Mutation Value) → List (Bytes × Option Bytes)
  | [] => []
  | mutation :: mutations =>
      flatBelow above mutation ++ flatAll above mutations

end

/-- The leaves of a mutation in order, each with its key and its value. -/
def flat (self : Mutation Value) : List (Bytes × Option Bytes) :=
  flatBelow intoWriter [] self

/-! ## The walk follows the list -/

/-- The entry of the reference list which a call stands for. -/
def entry (call : Bytes × Bytes) : Bytes × Option Bytes :=
  (call.1, some call.2)

/-- The callback with a log of the pairs which it is given. -/
def recording (f : Bytes → Bytes → Descent (Error ε) σ Unit)
    (path value : Bytes) :
    Descent (Error ε) (σ × List (Bytes × Bytes)) Unit :=
  logged (fun call => f call.1 call.2) (path, value)

section Walk

variable (f : Bytes → Bytes → Descent (Error ε) σ Unit)

/-- Functions of a path do not call back. -/
theorem traces_orPath {α : Type} {result : Checked (Except PathError α)}
    {post : α → Prop}
    (proper : ∀ value, result = .ok (.ok value) → post value) :
    Traces entry (fun call => f call.1 call.2) (orPath result)
      (orPath result) [] post := by
  cases result with
  | error panic => exact traces_throw _ _
  | ok outcome =>
      cases outcome with
      | error failure => exact traces_throw _ _
      | ok value => exact traces_pure (proper value rfl)

/-- The call of a leaf whose writer stands behind the segment. -/
theorem traces_call {segments : List Segment} {w : PathWriter}
    (buffer : w.writer = Segment.pathBytes segments) (value : Bytes) :
    Traces entry (fun call => f call.1 call.2)
      (do f (← orPath (.ok w.lww)) value; return w)
      (do recording f (← orPath (.ok w.lww)) value; return w)
      [(Segment.lwwBytes segments, some value)] (fun out => out = w) := by
  have key : w.lww = .ok (Segment.lwwBytes segments) := by
    rw [PathWriter.lww, buffer]
    rfl
  rw [key]
  exact (traces_logged (Segment.lwwBytes segments, value)).bind
    (fun _ _ => traces_pure rfl)

/-- A leaf hands on its key and its value. -/
theorem traces_apply {above : List Segment} (segment : Segment)
    (op : Op Value) {w : PathWriter}
    (buffer : w.writer = Segment.pathBytes above) :
    Traces entry (fun call => f call.1 call.2)
      (forEachInternal intoWriter f (.apply segment op) w)
      (forEachInternal intoWriter (recording f) (.apply segment op) w)
      (flatBelow intoWriter above (.apply segment op))
      (fun out => Segment.pathBytes above <+: out.writer) := by
  have written : Traces entry (fun call => f call.1 call.2)
      (orPath (segment.write w)) (orPath (segment.write w)) []
      (fun out => out.writer = Segment.pathBytes (above ++ [segment])) := by
    refine traces_orPath f fun out accepted => ?_
    rw [Segment.writer_of_write accepted, buffer, Segment.pathBytes_concat]
  have longer : ∀ out : PathWriter,
      out.writer = Segment.pathBytes (above ++ [segment]) →
      Segment.pathBytes above <+: out.writer := by
    intro out extended
    rw [extended, Segment.pathBytes_concat]
    exact List.prefix_append _ _
  cases op with
  | delete =>
      simp only [forEachInternal, flatBelow, Op.value]
      refine written.bind fun out extended => ?_
      refine (traces_call f extended []).imp ?_
      rintro last rfl
      exact longer last extended
  | assign value =>
      simp only [forEachInternal, flatBelow, Op.value]
      refine written.bind fun out extended => ?_
      cases intoWriter value with
      | error failure => exact traces_throw _ _
      | ok buf =>
          refine (traces_call f extended buf).imp ?_
          rintro last rfl
          exact longer last extended

mutual

theorem traces_forEachInternal (above : List Segment) :
    ∀ (mutation : Mutation Value) (w : PathWriter),
      w.writer = Segment.pathBytes above →
      Traces entry (fun call => f call.1 call.2)
        (forEachInternal intoWriter f mutation w)
        (forEachInternal intoWriter (recording f) mutation w)
        (flatBelow intoWriter above mutation)
        (fun out => Segment.pathBytes above <+: out.writer)
  | .apply segment op, w, buffer =>
      traces_apply intoWriter f segment op buffer
  | .nested segment mutations, w, buffer => by
      have written : Traces entry (fun call => f call.1 call.2)
          (orPath (segment.write w)) (orPath (segment.write w)) []
          (fun out =>
            out.writer = Segment.pathBytes (above ++ [segment])) := by
        refine traces_orPath f fun out accepted => ?_
        rw [Segment.writer_of_write accepted, buffer,
          Segment.pathBytes_concat]
      simp only [forEachInternal, flatBelow]
      refine written.bind fun out extended => ?_
      refine (traces_forEachAll (above ++ [segment]) mutations out
        extended).imp fun last same => ?_
      rw [same, Segment.pathBytes_concat]
      exact List.prefix_append _ _
  | .compose mutations, w, buffer => by
      simp only [forEachInternal, flatBelow]
      refine (traces_forEachAll above mutations w buffer).imp ?_
      intro last same
      rw [same]

/-- The loop restores the buffer behind every child. -/
theorem traces_forEachAll (above : List Segment) :
    ∀ (mutations : List (Mutation Value)) (w : PathWriter),
      w.writer = Segment.pathBytes above →
      Traces entry (fun call => f call.1 call.2)
        (forEachAll intoWriter f mutations w.writer.length w)
        (forEachAll intoWriter (recording f) mutations w.writer.length w)
        (flatAll intoWriter above mutations)
        (fun out => out.writer = Segment.pathBytes above)
  | [], w, buffer => traces_pure buffer
  | mutation :: mutations, w, buffer => by
      simp only [forEachAll, flatAll]
      refine (traces_forEachInternal above mutation w buffer).bind ?_
      intro out longer
      have restored : (out.truncate w.writer.length).writer =
          Segment.pathBytes above := by
        rw [PathWriter.truncate, buffer]
        exact (List.prefix_iff_eq_take.mp longer).symm
      have same : w.writer.length =
          (out.truncate w.writer.length).writer.length := by
        rw [restored, buffer]
      have others := traces_forEachAll above mutations
        (out.truncate w.writer.length) restored
      rwa [← same] at others

end

theorem traces_forEach (self : Mutation Value) :
    Traces entry (fun call => f call.1 call.2)
      (self.forEach intoWriter f) (self.forEach intoWriter (recording f))
      (self.flat intoWriter) (fun _ => True) := by
  have returns : Traces entry (fun call => f call.1 call.2)
      (pure ()) (pure ()) [] (fun _ => True) :=
    traces_pure trivial
  have traces := (traces_forEachInternal intoWriter f [] self
    (PathWriter.new [] 0) rfl).bind (fun _ _ => returns)
  rwa [List.append_nil] at traces

/--
Whatever the callback does, the pairs which it is given are the first leaves
of the mutation, and they are all of them when `for_each` succeeds.
-/
theorem forEach_calls (self : Mutation Value) (state : σ) :
    ∃ calls : List (Bytes × Bytes),
      self.forEach intoWriter (recording f) (state, []) =
          mapState (·, calls) (self.forEach intoWriter f state) ∧
        calls.map entry <+: self.flat intoWriter ∧
        ∀ after, self.forEach intoWriter f state = .ok () after →
          calls.map entry = self.flat intoWriter := by
  obtain ⟨calls, same, begun, done⟩ :=
    traces_forEach intoWriter f self state []
  refine ⟨calls, same, begun, ?_⟩
  intro after success
  exact (done () after success).1

end Walk

end Mutation

end Cdoc
