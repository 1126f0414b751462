import Cdoc.Path.LseqGrowth
import Cdoc.Sequences
import Cdoc.Siblings

/-!
# Room for sequences

An edit of a sequence is never refused, as long as the path of the sequence
leaves ten bytes for each edit so far and for the next one: the generator
finds an index, the index is accepted, and the key fits into a path.
-/

namespace Cdoc

open Cdoc.Foundation
open Cdoc.Path
open Cdoc.Sst

/-! ## The cells after some edits -/

/-- Whether an event is an edit of the sequence. -/
def SequenceEvent.isEdit {Value : Type} : SequenceEvent Value → Bool
  | .edit _ => true
  | _ => false

/-- The edit belongs to a place of the sequence. -/
def Edit.InRange {Value : Type} (cells : List Cell) : Edit Value → Prop
  | .insert _ _ => True
  | .assign place _ | .delete place => place < cells.length

/-- The cells which one peer has made with a number of edits. -/
structure Made (pid : PID) (edits : Nat) (cells : List Cell) : Prop where
  ordered : Ordered pid (edits + 1) cells
  within : SharedList.Within edits (cells.map Prod.fst)

section Edits

variable {Value ε : Type} {intoWriter : Value → Except ε Bytes}
variable {node : List Segment} {pid : PID} {edits : Nat} {cells : List Cell}

theorem Made.mono {more : Nat} (le : edits ≤ more)
    (made : Made pid edits cells) : Made pid more cells where
  ordered := made.ordered.mono (Nat.succ_le_succ le)
  within := by
    intro index member
    obtain ⟨segments, same, proper, nonempty, short⟩ :=
      made.within index member
    exact ⟨segments, same, proper, nonempty, short.trans le⟩

/-- The peer inserts at a gap. -/
theorem Made.insert (nonzero : pid.val ≠ 0)
    (room : edits + 1 < 0xffffffff) (made : Made pid edits cells)
    (gap : Nat) :
    ∃ index, SharedList.generate (cells.map Prod.fst) ⟨gap, pid⟩ =
        .ok index ∧
      index.length ≤ 10 * (edits + 1) ∧
      ∀ value, SharedList.Within (edits + 1)
        ((cells.take gap ++ (index, value) :: cells.drop gap).map
          Prod.fst) := by
  obtain ⟨index, generated, -⟩ := @SharedList.generate_spec (edits + 1)
    (cells.map Prod.fst) ⟨gap, pid⟩ (Nat.le_add_left 1 edits) room nonzero
    made.ordered.shape made.ordered.sorted
  have inserted : SharedList.insert (cells.map Prod.fst) ⟨gap, pid⟩ =
      .ok ((cells.map Prod.fst).take gap ++
        index :: (cells.map Prod.fst).drop gap) := by
    rw [SharedList.insert, generated]
    rfl
  have within := made.within.insert nonzero inserted
  obtain ⟨segments, same, -, -, short⟩ := within index (by simp)
  refine ⟨index, generated, ?_, fun value => ?_⟩
  · rw [same]
    exact (length_encodeSegments_le segments).trans
      (Nat.mul_le_mul_left 10 short)
  · rw [List.map_append, List.map_cons, List.map_take, List.map_drop]
    exact within

/-- The peer writes at an index which is there. -/
theorem Made.replace (made : Made pid edits cells) {place : Nat}
    {cell : Cell} (found : cells[place]? = some cell) :
    cell.1.length ≤ 10 * edits ∧
      ∀ value, SharedList.Within edits
        ((cells.set place (cell.1, value)).map Prod.fst) := by
  obtain ⟨inside, same⟩ := List.getElem?_eq_some_iff.mp found
  constructor
  · obtain ⟨segments, named, -, -, short⟩ := made.within cell.1
      (List.mem_map_of_mem (List.mem_of_getElem? found))
    rw [named]
    exact (length_encodeSegments_le segments).trans
      (Nat.mul_le_mul_left 10 short)
  · intro value
    have indices : (cells.set place (cell.1, value)).map Prod.fst =
        cells.map Prod.fst := by
      have bound : place < (cells.map Prod.fst).length := by
        rwa [List.length_map]
      have named : cell.1 = (cells.map Prod.fst)[place] := by
        rw [List.getElem_map, same]
      rw [List.map_set, named, List.set_getElem_self]
    rw [indices]
    exact made.within

/-- An edit finds an index, and the sequence with it is made by one more. -/
theorem Made.edit (nonzero : pid.val ≠ 0) (room : edits + 1 < 0xffffffff)
    (made : Made pid edits cells) {edit : Edit Value}
    (inRange : edit.InRange cells) :
    ∃ index op, edit.target pid cells = some (index, op) ∧
      index.length ≤ 10 * (edits + 1) ∧
      FractionalIndex.new index = .ok (some ⟨index⟩) ∧
      ∀ value, Made pid (edits + 1) (edit.write cells (index, value)) := by
  have found : ∃ index op, edit.target pid cells = some (index, op) ∧
      index.length ≤ 10 * (edits + 1) ∧
      ∀ value, SharedList.Within (edits + 1)
        ((edit.write cells (index, value)).map Prod.fst) := by
    cases edit with
    | insert gap content =>
        obtain ⟨index, generated, short, within⟩ :=
          made.insert nonzero room gap
        refine ⟨index, .assign content, ?_, short, within⟩
        rw [Edit.target, generated]
        rfl
    | assign place content =>
        have present := List.getElem?_eq_getElem inRange
        obtain ⟨short, within⟩ :=
          (made.mono (Nat.le_succ edits)).replace present
        refine ⟨_, .assign content, ?_, short, within⟩
        rw [Edit.target, present]
        rfl
    | delete place =>
        have present := List.getElem?_eq_getElem inRange
        obtain ⟨short, within⟩ :=
          (made.mono (Nat.le_succ edits)).replace present
        refine ⟨_, .delete, ?_, short, within⟩
        rw [Edit.target, present]
        rfl
  obtain ⟨index, op, aimed, short, within⟩ := found
  have writes := fun value => Edit.writes nonzero (Nat.le_add_left 1 edits)
    room made.ordered aimed value
  exact ⟨index, op, aimed, short, (writes []).accepted,
    fun value => ⟨(writes value).ordered, within value⟩⟩

theorem Edit.inRange_of_target {edit : Edit Value} {index : Bytes}
    {op : Op Value} (aimed : edit.target pid cells = some (index, op)) :
    edit.InRange cells := by
  cases edit with
  | insert gap content => trivial
  | assign place content | delete place =>
      obtain ⟨cell, found, -⟩ := Option.bind_eq_some_iff.mp aimed
      exact (List.getElem?_eq_some_iff.mp found).1

theorem made_step (nonzero : pid.val ≠ 0)
    {store store' : Store (List Cell)} (all : store.All (Made pid edits))
    {event : SequenceEvent Value} {did : Option (DocumentEvent Value)}
    (room : edits + [event].countP SequenceEvent.isEdit < 0xffffffff)
    (stepped : (sequences intoWriter node pid).step store event =
      some (store', did)) :
    store'.All (Made pid (edits + [event].countP SequenceEvent.isEdit)) := by
  cases event with
  | store event =>
      cases stepped
      exact all.step event
  | other mutation fault succeeds =>
      cases stepped
      exact all
  | edit edit =>
      simp only [sequences, Option.bind_eq_bind, Option.bind_eq_some_iff,
        Option.pure_def, Option.some.injEq, Prod.mk.injEq] at stepped
      obtain ⟨cells, own, ⟨index, op⟩, aimed, value, -, rfl, -⟩ := stepped
      have later := all.imp fun _ => Made.mono (Nat.le_succ edits)
      refine { later with writer := ?_ }
      rintro _ written
      cases written
      obtain ⟨_, _, same, -, -, made⟩ :=
        (all.writer cells own).edit nonzero room
          (Edit.inRange_of_target aimed)
      cases same.symm.trans aimed
      exact made value

theorem made_run (nonzero : pid.val ≠ 0)
    {store store' : Store (List Cell)} (all : store.All (Made pid edits))
    {events : List (SequenceEvent Value)}
    {session : List (DocumentEvent Value)}
    (room : edits + events.countP SequenceEvent.isEdit < 0xffffffff)
    (played : (sequences intoWriter node pid).run store events =
      some (store', session)) :
    store'.All
      (Made pid (edits + events.countP SequenceEvent.isEdit)) := by
  induction events generalizing edits store session with
  | nil =>
      cases played
      exact all
  | cons event events induction =>
      obtain ⟨next, did, later, stepped, rests, -⟩ :=
        Machine.run_cons_eq_some_iff.mp played
      have split : (event :: events).countP SequenceEvent.isEdit =
          [event].countP SequenceEvent.isEdit +
            events.countP SequenceEvent.isEdit := by
        rw [← List.countP_append, List.singleton_append]
      rw [split, ← Nat.add_assoc] at room ⊢
      exact induction (made_step nonzero all (by omega) stepped) room rests

/-! ## The path of an edit -/

theorem segments_inside (node : List Segment) (inner : Mutation Value) :
    (Mutation.inside node inner).segments = node ++ inner.segments := by
  induction node with
  | nil => rfl
  | cons segment node induction =>
      have stepped : (Mutation.inside (segment :: node) inner).segments =
          segment :: ((Mutation.inside node inner).segments ++ []) :=
        rfl
      rw [stepped, induction, List.append_nil, List.cons_append]

theorem values_inside (node : List Segment) (inner : Mutation Value) :
    (Mutation.inside node inner).values = inner.values := by
  induction node with
  | nil => rfl
  | cons segment node induction =>
      have stepped : (Mutation.inside (segment :: node) inner).values =
          (Mutation.inside node inner).values ++ [] :=
        rfl
      rw [stepped, induction, List.append_nil]

/-- A short path fits, since the count is at most its length. -/
theorem fits_of_short {count : Nat} {segments : List Segment}
    (short : count + (Segment.pathBytes segments).length ≤ 32767) :
    Fits count (Mutation.elements segments) := by
  induction segments generalizing count with
  | nil => trivial
  | cons segment segments induction =>
      have long : (Segment.pathBytes (segment :: segments)).length =
          (1 + segment.bytes.length) +
            (Segment.pathBytes segments).length := by
        simp [Segment.pathBytes, Nat.add_comm, Nat.add_assoc]
      have counted : segment.element.counted ≤
          1 + segment.bytes.length := by
        cases segment with
        | field name => exact le_rfl
        | fractionalIndex bytes => exact Nat.le_add_left _ 1
      refine ⟨?_, induction (by omega)⟩
      rw [Segment.body_element]
      omega

/--
With ten bytes left for every edit no edit fails: it has an index, and the
mutation which it becomes is carried out unless a call refuses its leaf.
-/
theorem edits_of_sequences {events : List (SequenceEvent Value)}
    {session : List (DocumentEvent Value)} {store : Store (List Cell)}
    {stem : Bytes} (nonzero : pid.val ≠ 0)
    (played : (sequences intoWriter node pid).run (Store.start []) events =
      some (store, session))
    (written : subtreeStem node = .ok (.ok stem))
    (room : stem.length +
      10 * (events.countP SequenceEvent.isEdit + 1) ≤ 32767)
    {cells : List Cell} (own : store.writer = some cells)
    {edit : Edit Value} (inRange : edit.InRange cells) :
    ∃ index op, edit.target pid cells = some (index, op) ∧
      ∀ value, op.value intoWriter = some value →
        ∀ (σ : Type) (f : Bytes → Bytes → Descent (Error ε) σ Unit),
          Mutation.AlwaysOk f → ∀ state, ∃ after,
            (Mutation.inside node (.apply (.fractionalIndex index)
              op)).forEach intoWriter f state = .ok () after := by
  have empty : Made pid 0 [] := by
    refine ⟨⟨?_, ?_, List.Pairwise.nil⟩, List.forall_mem_nil _⟩
    · simp [SharedList.OwnedBy]
    · simp [SharedList.Shape]
  have start : (Store.start ([] : List Cell)).All (Made pid 0) := {
    committed := empty
    durable := empty
    writer := fun own absurdity => by cases absurdity
    readers := List.forall_mem_nil _ }
  have made := (made_run nonzero start (by omega) played).writer cells own
  rw [Nat.zero_add] at made
  obtain ⟨index, op, aimed, short, accepted, -⟩ :=
    made.edit nonzero (by omega) inRange
  refine ⟨index, op, aimed, fun value encoded σ f always state => ?_⟩
  obtain ⟨acceptable, rfl⟩ := subtreeStem_eq_ok written
  have path : (Mutation.inside node (.apply (.fractionalIndex index)
      op)).segments = node ++ [.fractionalIndex index] :=
    segments_inside node _
  have pushed : ∀ segment ∈ (Mutation.inside node
      (.apply (.fractionalIndex index) op)).segments,
      segment.Acceptable := by
    rw [path]
    refine List.forall_mem_append.mpr ⟨acceptable, ?_⟩
    intro segment member
    rw [List.mem_singleton.mp member]
    exact accepted
  have encodes : ∀ content ∈ (Mutation.inside node
      (.apply (.fractionalIndex index) op)).values,
      ∃ bytes, intoWriter content = .ok bytes := by
    rw [values_inside]
    cases op with
    | delete => exact List.forall_mem_nil _
    | assign content =>
        intro other member
        rw [List.mem_singleton.mp member]
        cases result : intoWriter content with
        | ok bytes => exact ⟨bytes, rfl⟩
        | error failure =>
            rw [Op.value, result] at encoded
            cases encoded
  have affordable : (Mutation.inside node
      (.apply (.fractionalIndex index) op)).Affordable := by
    rw [Mutation.Affordable, path]
    refine fits_of_short ?_
    rw [Segment.pathBytes_concat, List.length_append]
    rw [List.length_append] at room
    simp only [Segment.bytes, List.length_cons, List.length_nil] at room ⊢
    omega
  obtain ⟨_, after, done, -⟩ := Mutation.succeeds_forEach intoWriter always
    pushed encodes affordable state
  exact ⟨after, done⟩

end Edits

/-- A third insertion into the sequence of the writer. -/
theorem edits_of_sequences_edited :
    ∃ index after,
      (Edit.insert 1 60 : Edit UInt8).target ⟨7⟩
          [([1, 7, 1, 1, 1, 7, 1, 2], []),
            ([1, 7, 1, 1, 1, 7, 1, 3], [40]), ([1, 7, 1, 2], [10])] =
        some (index, .assign 60) ∧
      (Mutation.inside [.field "l"] (.apply (.fractionalIndex index)
        (.assign 60))).forEach itself
          (fun _ _ => (pure () : Descent (Error Unit) Unit Unit)) () =
        .ok () after := by
  have played : (sequences itself [.field "l"] ⟨7⟩).run (Store.start [])
      editedSequence = some (editedCells, editedSession) :=
    rfl
  have written : subtreeStem [.field "l"] = .ok (.ok [0, 108, 0]) := by
    decide
  obtain ⟨index, op, aimed, carried⟩ := edits_of_sequences
    (by decide : (⟨7⟩ : PID).val ≠ 0) played written (by decide) rfl
    (show (Edit.insert 1 60 : Edit UInt8).InRange _ from trivial)
  have assigns := aimed
  simp only [Edit.target, Option.bind_eq_bind, Option.bind_eq_some_iff,
    Option.pure_def, Option.some.injEq, Prod.mk.injEq] at assigns
  obtain ⟨_, -, -, rfl⟩ := assigns
  obtain ⟨after, done⟩ := carried [60] rfl Unit _
    (fun _ _ => succeeds_pure trivial) ()
  exact ⟨index, after, aimed, done⟩

end Cdoc
