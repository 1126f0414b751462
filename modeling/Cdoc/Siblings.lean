import Cdoc.Flattening

/-!
# Siblings share one limit

The writer of `for_each` counts what it has written, to keep every key within
the limit of a path.  Between siblings the buffer is cut back and the count
is not, so the count runs over all segments of the tree.  A mutation is
carried out exactly when all its segments, in the order in which they are
visited, fit into one path.
-/

namespace Cdoc

open Cdoc.Foundation
open Cdoc.Path

namespace Segment

/-- The segments can be written one by one to a fresh writer. -/
def Writable (segments : List Segment) : Prop :=
  ∃ w, writeAll segments (PathWriter.new [] 0) = .ok (.ok w)

theorem writeAll_cons {segment : Segment} {w result : PathWriter}
    (written : segment.write w = .ok (.ok result))
    (others : List Segment) :
    writeAll (segment :: others) w = writeAll others result := by
  rw [writeAll, written]
  rfl

end Segment

namespace Mutation

variable {Value ε σ : Type}

/-! ## The nodes of a mutation -/

mutual

/-- The segments of a mutation in the order in which they are visited. -/
def segments : Mutation Value → List Segment
  | .apply segment _ => [segment]
  | .nested segment mutations => segment :: segmentsAll mutations
  | .compose mutations => segmentsAll mutations

/-- The segments of mutations in order. -/
def segmentsAll : List (Mutation Value) → List Segment
  | [] => []
  | mutation :: mutations => segments mutation ++ segmentsAll mutations

end

mutual

/-- The segments from the root to each leaf and to each nested node. -/
def pathsBelow (above : List Segment) :
    Mutation Value → List (List Segment)
  | .apply segment _ => [above ++ [segment]]
  | .nested segment mutations =>
      (above ++ [segment]) :: pathsAll (above ++ [segment]) mutations
  | .compose mutations => pathsAll above mutations

/-- The paths of mutations below the given place, in order. -/
def pathsAll (above : List Segment) :
    List (Mutation Value) → List (List Segment)
  | [] => []
  | mutation :: mutations =>
      pathsBelow above mutation ++ pathsAll above mutations

end

/-- The paths of all leaves of a mutation. -/
def paths (self : Mutation Value) : List (List Segment) :=
  pathsBelow [] self

mutual

/-- The assigned values. -/
def values : Mutation Value → List Value
  | .apply _ (.assign value) => [value]
  | .apply _ .delete => []
  | .nested _ mutations => valuesAll mutations
  | .compose mutations => valuesAll mutations

/-- The values of mutations in order. -/
def valuesAll : List (Mutation Value) → List Value
  | [] => []
  | mutation :: mutations => values mutation ++ valuesAll mutations

end

/-- The elements which are pushed during the walk. -/
def elements (segments : List Segment) : List PathElement :=
  segments.map Segment.element

/-- All segments of the tree together fit into one path. -/
def Affordable (self : Mutation Value) : Prop :=
  Fits 0 (elements self.segments)

mutual

/-- Every segment is the last one of some path. -/
theorem exists_pathsBelow (above : List Segment) :
    ∀ (mutation : Mutation Value), ∀ segment ∈ segments mutation,
      ∃ path ∈ pathsBelow above mutation, segment ∈ path
  | .apply own op, segment, member => by
      rw [segments, List.mem_singleton] at member
      exact ⟨above ++ [own], by simp [pathsBelow], by simp [member]⟩
  | .nested own mutations, segment, member => by
      rw [segments, List.mem_cons] at member
      rcases member with rfl | inside
      · exact ⟨above ++ [segment], by simp [pathsBelow], by simp⟩
      · obtain ⟨path, found, holds⟩ :=
          exists_pathsAll (above ++ [own]) mutations segment inside
        exact ⟨path, by simp [pathsBelow, found], holds⟩
  | .compose mutations, segment, member => by
      rw [segments] at member
      rw [pathsBelow]
      exact exists_pathsAll above mutations segment member

theorem exists_pathsAll (above : List Segment) :
    ∀ (mutations : List (Mutation Value)),
      ∀ segment ∈ segmentsAll mutations,
      ∃ path ∈ pathsAll above mutations, segment ∈ path
  | [], segment, member => by
      rw [segmentsAll] at member
      cases member
  | mutation :: mutations, segment, member => by
      rw [segmentsAll, List.mem_append] at member
      simp only [pathsAll, List.mem_append]
      rcases member with here | later
      · obtain ⟨path, found, holds⟩ :=
          exists_pathsBelow above mutation segment here
        exact ⟨path, Or.inl found, holds⟩
      · obtain ⟨path, found, holds⟩ :=
          exists_pathsAll above mutations segment later
        exact ⟨path, Or.inr found, holds⟩

end

/-! ## The count of the walk -/

section Walk

variable (intoWriter : Value → Except ε Bytes)
variable (f : Bytes → Bytes → Descent (Error ε) σ Unit)

/-- What the count of a writer says when the given segments are behind it. -/
structure Counted (before after : Nat) (segments : List Segment) :
    Prop where
  fits : Fits before (elements segments)
  count : after = before + countedAll (elements segments)

theorem counted_nil (count : Nat) : Counted count count [] :=
  ⟨trivial, rfl⟩

theorem Counted.append {before middle after : Nat}
    {first others : List Segment} (now : Counted before middle first)
    (later : Counted middle after others) :
    Counted before after (first ++ others) := by
  obtain ⟨fits, rfl⟩ := now
  obtain ⟨fitsLater, rfl⟩ := later
  refine ⟨?_, ?_⟩
  · rw [elements, List.map_append]
    exact fits_append.mpr ⟨fits, fitsLater⟩
  · simp only [elements, countedAll, List.map_append, List.sum_append,
      Nat.add_assoc]

theorem counted_of_write {segment : Segment} {w result : PathWriter}
    (written : segment.write w = .ok (.ok result)) :
    Counted w.written result.written [segment] := by
  obtain ⟨-, room, rfl⟩ := Segment.write_eq_ok_iff.mp written
  rw [← Segment.body_element] at room
  exact ⟨⟨room, trivial⟩, by simp [elements, countedAll]⟩

theorem ensures_orPath {α : Type} {result : Checked (Except PathError α)}
    {post : α → Prop}
    (proper : ∀ value, result = .ok (.ok value) → post value) :
    Ensures (orPath result : Descent (Error ε) σ α) post := by
  cases result with
  | error panic => exact ensures_throw _
  | ok outcome =>
      cases outcome with
      | error failure => exact ensures_throw _
      | ok value => exact ensures_pure (proper value rfl)

mutual

/-- A successful walk has counted all segments. -/
theorem ensures_forEachInternal :
    ∀ (mutation : Mutation Value) (w : PathWriter),
      Ensures (forEachInternal intoWriter f mutation w)
        (fun out => Counted w.written out.written (segments mutation))
  | .apply segment .delete, w => by
      simp only [forEachInternal, segments]
      refine (ensures_orPath fun _ => counted_of_write).bind ?_
      intro out counted
      exact ensures_true.bind fun key _ => ensures_true.bind fun _ _ =>
        ensures_pure counted
  | .apply segment (.assign value), w => by
      simp only [forEachInternal, segments]
      refine (ensures_orPath fun _ => counted_of_write).bind ?_
      intro out counted
      exact ensures_true.bind fun buf _ => ensures_true.bind fun key _ =>
        ensures_true.bind fun _ _ => ensures_pure counted
  | .nested segment mutations, w => by
      simp only [forEachInternal, segments]
      refine (ensures_orPath fun _ => counted_of_write).bind ?_
      intro out counted state last after success
      exact counted.append
        (ensures_forEachAll mutations _ out state last after success)
  | .compose mutations, w => by
      simp only [forEachInternal, segments]
      exact ensures_forEachAll mutations _ w

/-- Cutting the buffer back leaves the count as it is. -/
theorem ensures_forEachAll :
    ∀ (mutations : List (Mutation Value)) (trunc : Nat) (w : PathWriter),
      Ensures (forEachAll intoWriter f mutations trunc w)
        (fun out => Counted w.written out.written (segmentsAll mutations))
  | [], trunc, w => ensures_pure (counted_nil w.written)
  | mutation :: mutations, trunc, w => by
      simp only [forEachAll, segmentsAll]
      refine (ensures_forEachInternal mutation w).bind ?_
      intro out counted state last after success
      exact counted.append (ensures_forEachAll mutations trunc
        (out.truncate trunc) state last after success)

end

/-- The callback never fails. -/
def AlwaysOk (f : Bytes → Bytes → Descent (Error ε) σ Unit) : Prop :=
  ∀ path value, Succeeds (f path value) (fun _ => True)

theorem succeeds_write {segment : Segment} {w : PathWriter}
    {others : List Segment} (acceptable : segment.Acceptable)
    (fits : Fits w.written (elements (segment :: others))) :
    Succeeds (orPath (segment.write w) : Descent (Error ε) σ PathWriter)
      (fun out => Fits out.written (elements others)) := by
  obtain ⟨room, fitsOthers⟩ := fits
  rw [Segment.body_element] at room
  rw [Segment.write_eq_ok_iff.mpr ⟨acceptable, room, rfl⟩]
  exact succeeds_pure fitsOthers

/-- The call of a leaf does not touch the writer. -/
theorem succeeds_call {f : Bytes → Bytes → Descent (Error ε) σ Unit}
    (always : AlwaysOk f) {post : PathWriter → Prop} {w : PathWriter}
    (proper : post w) (value : Bytes) :
    Succeeds (do f (← orPath (.ok w.lww)) value; return w) post := by
  have closed : Succeeds (orPath (.ok w.lww) : Descent (Error ε) σ Bytes)
      (fun _ => True) :=
    succeeds_pure trivial
  exact closed.bind fun key _ =>
    (always key value).bind fun _ _ => succeeds_pure proper

mutual

/-- The walk succeeds and leaves room for whatever is visited later. -/
theorem succeeds_forEachInternal
    {f : Bytes → Bytes → Descent (Error ε) σ Unit} (always : AlwaysOk f) :
    ∀ (mutation : Mutation Value) (w : PathWriter) (later : List Segment),
      (∀ segment ∈ segments mutation, segment.Acceptable) →
      (∀ value ∈ values mutation, ∃ bytes, intoWriter value = .ok bytes) →
      Fits w.written (elements (segments mutation ++ later)) →
      Succeeds (forEachInternal intoWriter f mutation w)
        (fun out => Fits out.written (elements later))
  | .apply segment .delete, w, later, acceptable, _, fits => by
      rw [segments, List.singleton_append] at fits
      simp only [forEachInternal]
      refine (succeeds_write (acceptable segment (by simp [segments]))
        fits).bind fun out room => ?_
      exact succeeds_call always room []
  | .apply segment (.assign value), w, later, acceptable, encodes,
      fits => by
      rw [segments, List.singleton_append] at fits
      obtain ⟨buf, encoded⟩ := encodes value (by simp [values])
      simp only [forEachInternal, encoded]
      refine (succeeds_write (acceptable segment (by simp [segments]))
        fits).bind fun out room => ?_
      exact succeeds_call always room buf
  | .nested segment mutations, w, later, acceptable, encodes, fits => by
      rw [segments, List.forall_mem_cons] at acceptable
      rw [segments, List.cons_append] at fits
      simp only [forEachInternal]
      refine (succeeds_write acceptable.1 fits).bind fun out room => ?_
      exact succeeds_forEachAll always mutations _ out later acceptable.2
        (by rwa [values] at encodes) room
  | .compose mutations, w, later, acceptable, encodes, fits => by
      simp only [forEachInternal]
      exact succeeds_forEachAll always mutations _ w later
        (by rwa [segments] at acceptable) (by rwa [values] at encodes)
        (by rwa [segments] at fits)

theorem succeeds_forEachAll
    {f : Bytes → Bytes → Descent (Error ε) σ Unit} (always : AlwaysOk f) :
    ∀ (mutations : List (Mutation Value)) (trunc : Nat) (w : PathWriter)
      (later : List Segment),
      (∀ segment ∈ segmentsAll mutations, segment.Acceptable) →
      (∀ value ∈ valuesAll mutations,
        ∃ bytes, intoWriter value = .ok bytes) →
      Fits w.written (elements (segmentsAll mutations ++ later)) →
      Succeeds (forEachAll intoWriter f mutations trunc w)
        (fun out => Fits out.written (elements later))
  | [], trunc, w, later, _, _, fits => succeeds_pure fits
  | mutation :: mutations, trunc, w, later, acceptable, encodes, fits => by
      rw [segmentsAll, List.forall_mem_append] at acceptable
      rw [valuesAll, List.forall_mem_append] at encodes
      rw [segmentsAll, List.append_assoc] at fits
      simp only [forEachAll]
      refine (succeeds_forEachInternal always mutation w _ acceptable.1
        encodes.1 fits).bind fun out room => ?_
      exact succeeds_forEachAll always mutations trunc
        (out.truncate trunc) later acceptable.2 encodes.2 room

end

theorem ensures_forEach (self : Mutation Value) :
    Ensures (self.forEach intoWriter f) (fun _ => self.Affordable) := by
  unfold forEach
  refine (ensures_forEachInternal intoWriter f self _).bind ?_
  intro out counted
  exact ensures_pure counted.fits

theorem succeeds_forEach {f : Bytes → Bytes → Descent (Error ε) σ Unit}
    (always : AlwaysOk f) {self : Mutation Value}
    (acceptable : ∀ segment ∈ self.segments, segment.Acceptable)
    (encodes : ∀ value ∈ self.values,
      ∃ bytes, intoWriter value = .ok bytes)
    (affordable : self.Affordable) :
    Succeeds (self.forEach intoWriter f) (fun _ => True) := by
  unfold forEach
  refine (succeeds_forEachInternal intoWriter always self _ [] acceptable
    encodes ?_).bind fun _ _ => succeeds_pure trivial
  rw [List.append_nil]
  exact affordable

end Walk

/-! ## The limit of a whole tree -/

/--
A mutation all of whose paths can be written is carried out exactly when its
segments fit together.
-/
theorem forEach_ok_iff_affordable (intoWriter : Value → Except ε Bytes)
    (self : Mutation Value)
    (writable : ∀ path ∈ self.paths, Segment.Writable path)
    (encodes : ∀ value ∈ self.values,
      ∃ bytes, intoWriter value = .ok bytes) :
    (∀ (σ : Type) (f : Bytes → Bytes → Descent (Error ε) σ Unit),
        AlwaysOk f → ∀ state, ∃ after,
          self.forEach intoWriter f state = .ok () after) ↔
      self.Affordable := by
  constructor
  · intro carriedOut
    obtain ⟨after, done⟩ := carriedOut Unit (fun _ _ => pure ())
      (fun _ _ => succeeds_pure trivial) ()
    exact ensures_forEach intoWriter _ self () () after done
  · intro affordable σ f always state
    have acceptable : ∀ segment ∈ self.segments, segment.Acceptable := by
      intro segment member
      obtain ⟨path, found, holds⟩ :=
        exists_pathsBelow [] self segment member
      obtain ⟨w, written⟩ := writable path found
      exact (Segment.writeAll_eq_ok written).1 segment holds
    obtain ⟨_, after, done, -⟩ :=
      succeeds_forEach intoWriter always acceptable encodes affordable state
    exact ⟨after, done⟩

/-- Two deletions of short fields. -/
theorem forEach_ok_iff_affordable_two :
    ∃ after, (compose [apply (.field "a") .delete,
      apply (.field "b") .delete]).forEach (fun _ : Unit => .ok [])
        (fun _ _ => (pure () : Descent (Error Unit) Unit Unit)) () =
          .ok () after := by
  refine (forEach_ok_iff_affordable _ _ ?_ ?_).mpr ?_ Unit _
    (fun _ _ => succeeds_pure trivial) ()
  · intro path member
    simp only [paths, pathsBelow, pathsAll, List.nil_append,
      List.append_nil, List.singleton_append, List.mem_cons,
      List.not_mem_nil, or_false] at member
    rcases member with rfl | rfl
    · exact ⟨⟨[0, 97], 2⟩, by decide⟩
    · exact ⟨⟨[0, 98], 2⟩, by decide⟩
  · intro value member
    simp [values, valuesAll] at member
  · show Fits 0 _
    decide

/-- The same field is deleted twice. -/
def twice (name : String) : Mutation Unit :=
  compose [apply (.field name) .delete, apply (.field name) .delete]

/-- A field which fits once, and not one after the other. -/
theorem twice_refused {name : String} (valid : Field.isValid name = true)
    (short : (strBytes name).length < 32767)
    (long : 16383 ≤ (strBytes name).length) :
    (∀ path ∈ (twice name).paths, Segment.Writable path) ∧
      ¬ ∃ after, (twice name).forEach (fun _ : Unit => .ok [])
        (fun _ _ => (pure () : Descent (Error Unit) Unit Unit)) () =
          .ok () after := by
  constructor
  · intro path member
    have same : path = [Segment.field name] := by
      simpa [twice, paths, pathsBelow, pathsAll] using member
    subst same
    have room : (PathWriter.new [] 0).written +
        (1 + (Segment.field name).bytes.length) ≤ 32767 := by
      show 0 + (1 + (strBytes name).length) ≤ 32767
      omega
    have written := Segment.write_eq_ok_iff.mpr
      ⟨(show (Segment.field name).Acceptable from valid), room, rfl⟩
    exact ⟨_, Segment.writeAll_cons written []⟩
  · rintro ⟨after, done⟩
    obtain ⟨-, full, -⟩ := ensures_forEach _ _ (twice name) () () after done
    have count : 0 + (1 + (strBytes name).length) +
        (1 + (strBytes name).length) ≤ 32767 := full
    omega

theorem twice_refused_letters :
    (∀ path ∈ (twice (letters 20000)).paths, Segment.Writable path) ∧
      ¬ ∃ after, (twice (letters 20000)).forEach (fun _ : Unit => .ok [])
        (fun _ _ => (pure () : Descent (Error Unit) Unit Unit)) () =
          .ok () after := by
  apply twice_refused
  · rw [Field.isValid_iff, strBytes_letters]
    intro byte member
    rw [List.eq_of_mem_replicate member]
    decide
  · rw [strBytes_letters, List.length_replicate]
    decide
  · rw [strBytes_letters, List.length_replicate]
    decide

end Mutation

end Cdoc
