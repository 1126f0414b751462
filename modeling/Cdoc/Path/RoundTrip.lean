import Cdoc.Path.Format

/-!
# Reading back what was written

A written path is the concatenation of its elements, each behind a
delimiter, and of its terminator.  The reader has no lengths.  It finds the
end of a field at the next delimiter and the end of an index at the next
peer identifier which is zero, although bytes which are zero may occur
inside an index.  Both ends are the right ones whatever follows, and the
iterator recovers the elements one by one.
-/

namespace Cdoc.Path

open Cdoc.Foundation

/-! ## Accepted indices inside longer byte strings -/

/-- What a successful `parse` has read. -/
theorem Segment.parse_eq_some {bytes rest : Bytes} {segment : Segment}
    (parsed : Segment.parse bytes = .ok (some (segment, rest))) :
    ∃ pid used seq usedSeq,
      VarInt.BE32.readFrom bytes = .ok (some (pid, used)) ∧
        PID.new (UInt32.ofNat pid) = some segment.pid ∧
        used ≤ bytes.length ∧
        VarInt.U32.readFrom (bytes.drop used) =
          .ok (some (seq, usedSeq)) ∧
        0 < usedSeq ∧
        usedSeq ≤ (bytes.drop used).length ∧
        rest = (bytes.drop used).drop usedSeq := by
  unfold Segment.parse at parsed
  rcases bind_eq_ok_iff.mp parsed with ⟨pidRead, readPid, parsed⟩
  cases pidRead with
  | none => cases parsed
  | some pair =>
      rcases pair with ⟨pid, used⟩
      have usedBound := (VarInt.readFrom_append (by decide) readPid []).2.2
      dsimp only at parsed
      cases peer : PID.new (UInt32.ofNat pid) with
      | none =>
          rw [peer] at parsed
          cases parsed
      | some pidValue =>
          rw [peer] at parsed
          simp only [sliceFrom_of_le usedBound, ok_bind] at parsed
          rcases bind_eq_ok_iff.mp parsed with ⟨seqRead, readSeq, parsed⟩
          cases seqRead with
          | none => cases parsed
          | some pair =>
              rcases pair with ⟨seq, usedSeq⟩
              have seqBound := (VarInt.readFrom_append (by decide) readSeq []).2
              simp only [sliceFrom_of_le seqBound.2, ok_bind,
                pure_eq_ok, Except.ok.injEq, Option.some.injEq,
                Prod.mk.injEq] at parsed
              rcases parsed with ⟨rfl, rfl⟩
              exact ⟨pid, used, seq, usedSeq, readPid, peer, usedBound,
                readSeq, seqBound.1, seqBound.2, rfl⟩

/-- One round of `from_bytes` on a byte string which starts a segment. -/
theorem FractionalIndex.fromBytesLoop_parse
    {bytes rest : Bytes} {segment : Segment}
    (parsed : Segment.parse bytes = .ok (some (segment, rest)))
    (after : Bytes) (rounds read : Nat) :
    rest.length < bytes.length ∧
      fromBytesLoop (rounds + 1) (bytes ++ after) read =
        fromBytesLoop rounds (rest ++ after)
          (read + (bytes.length - rest.length)) := by
  rcases Segment.parse_eq_some parsed with
    ⟨pid, used, seq, usedSeq, readPid, peer, usedBound, readSeq, seqPositive,
      seqBound, rfl⟩
  rcases VarInt.readFrom_append (by decide) readPid after with
    ⟨readPidAfter, usedPositive, _⟩
  have readSeqAfter := (VarInt.readFrom_append (by decide) readSeq after).1
  have dropPid : (bytes ++ after).drop used = bytes.drop used ++ after :=
    List.drop_append_of_le_length usedBound
  have dropSeq :
      (bytes.drop used ++ after).drop usedSeq =
        (bytes.drop used).drop usedSeq ++ after :=
    List.drop_append_of_le_length seqBound
  have nonempty : (bytes ++ after).isEmpty = false := by
    cases bytes with
    | nil => simp at usedBound; omega
    | cons => rfl
  simp only [List.length_drop] at seqBound ⊢
  refine ⟨by omega, ?_⟩
  have pidFits : used ≤ (bytes ++ after).length := by
    simp only [List.length_append]
    omega
  have seqFits : usedSeq ≤ (bytes.drop used ++ after).length := by
    simp only [List.length_append, List.length_drop]
    omega
  have count :
      read + used + usedSeq =
        read + (bytes.length - (bytes.length - used - usedSeq)) := by
    omega
  rw [fromBytesLoop, nonempty]
  simp only [Bool.false_eq_true, if_false]
  rw [show VarInt.BE32.readFrom (bytes ++ after) = _ from readPidAfter]
  simp only [ok_bind, peer, Option.isNone_some, Bool.false_eq_true,
    if_false, sliceFrom_of_le pidFits, dropPid]
  rw [show VarInt.U32.readFrom (bytes.drop used ++ after) = _ from
    readSeqAfter]
  simp only [ok_bind, sliceFrom_of_le seqFits, dropSeq, count]

/-- At a delimiter the loop of `from_bytes` stops. -/
theorem FractionalIndex.fromBytesLoop_delimiter
    (after : Bytes) (rounds read : Nat) :
    fromBytesLoop (rounds + 1) (DELIMITER :: after) read =
      .ok (some read) := by
  have zero : VarInt.BE32.readFrom (DELIMITER :: after) =
      .ok (some (0, 1)) := by
    simp [VarInt.BE32.readFrom, VarInt.readFrom, DELIMITER, slice]
    decide
  simp [fromBytesLoop, zero, PID.new]

/--
The loop of `from_bytes` runs through an accepted index and stops at the
delimiter behind it.
-/
theorem FractionalIndex.fromBytesLoop_collect
    {rounds : Nat} {bytes : Bytes} {segments : List Segment}
    (collected : Segments.collect rounds bytes = .ok (segments, []))
    (after : Bytes) (loopRounds : Nat)
    (enough : bytes.length < loopRounds) (read : Nat) :
    fromBytesLoop loopRounds (bytes ++ DELIMITER :: after) read =
      .ok (some (read + bytes.length)) := by
  induction rounds generalizing bytes segments loopRounds read with
  | zero => cases collected
  | succ rounds induction =>
      rcases Nat.exists_eq_succ_of_ne_zero (Nat.ne_zero_of_lt enough) with
        ⟨loopRounds, rfl⟩
      unfold Segments.collect at collected
      rcases bind_eq_ok_iff.mp collected with
        ⟨⟨item, rest⟩, stepped, continued⟩
      unfold Segments.next at stepped
      rcases bind_eq_ok_iff.mp stepped with ⟨parsed, parse, stepped⟩
      cases parsed with
      | none =>
          cases stepped
          simp only [pure_eq_ok, Except.ok.injEq, Prod.mk.injEq]
            at continued
          rcases continued with ⟨-, rfl⟩
          exact fromBytesLoop_delimiter after loopRounds read
      | some pair =>
          rcases pair with ⟨segment, others⟩
          cases stepped
          rcases bind_eq_ok_iff.mp continued with
            ⟨⟨tail, stop⟩, recursed, result⟩
          cases result
          rcases fromBytesLoop_parse parse
              (DELIMITER :: after) loopRounds read with
            ⟨shorter, step⟩
          rw [Nat.succ_eq_add_one, step,
            induction recursed _ (by omega) _, Nat.add_assoc,
            Nat.sub_add_cancel shorter.le]

/-- `new` accepts exactly the byte strings which it parses to the end. -/
theorem FractionalIndex.new_eq_some_iff {bytes : Bytes}
    {index : FractionalIndex} :
    FractionalIndex.new bytes = .ok (some index) ↔
      index = ⟨bytes⟩ ∧
        ∃ segments, FractionalIndex.parts bytes = .ok (segments, []) := by
  unfold FractionalIndex.new FractionalIndex.isValid
  cases parsed : FractionalIndex.parts bytes with
  | error failure => simp
  | ok pair =>
      rcases pair with ⟨segments, stop⟩
      cases stop with
      | nil => simp [eq_comm]
      | cons => simp

/-- An accepted index is found in front of a delimiter. -/
theorem FractionalIndex.fromBytes_append {bytes : Bytes}
    {index : FractionalIndex}
    (accepted : FractionalIndex.new bytes = .ok (some index))
    (nonempty : bytes ≠ []) (after : Bytes) :
    FractionalIndex.fromBytes (bytes ++ DELIMITER :: after) =
      .ok (some (⟨bytes⟩, bytes.length)) := by
  rcases FractionalIndex.new_eq_some_iff.mp accepted with
    ⟨-, segments, collected⟩
  have enough :
      bytes.length < (bytes ++ DELIMITER :: after).length + 1 := by
    simp only [List.length_append, List.length_cons]
    omega
  have loop := fromBytesLoop_collect collected after _ enough 0
  rcases Nat.exists_eq_succ_of_ne_zero
      (List.length_pos_of_ne_nil nonempty).ne' with
    ⟨length, shape⟩
  unfold FractionalIndex.fromBytes
  rw [loop]
  simp [shape, slice]

/-! ## The bytes of a path -/

/-- The bytes which an element adds behind its delimiter. -/
def PathElement.body : PathElement → Bytes
  | .field name => strBytes name
  | .index position => position.bytes

/-- The bytes which a terminator adds behind its delimiter. -/
def Terminator.body : Terminator → Bytes
  | .counter pid => TERMINATOR_COUNTER :: pid.asBytes
  | .lww => [TERMINATOR_LWW]
  | .chunked endIndex => TERMINATOR_CHUNKED :: VarInt.U64.write endIndex

/-- The elements of a path, each behind a delimiter. -/
def elementBytes (elements : List PathElement) : Bytes :=
  elements.flatMap fun element => DELIMITER :: element.body

@[simp]
theorem elementBytes_nil : elementBytes [] = [] :=
  rfl

@[simp]
theorem elementBytes_cons (head : PathElement) (tail : List PathElement) :
    elementBytes (head :: tail) =
      DELIMITER :: (head.body ++ elementBytes tail) :=
  rfl

/-- A field without control characters, or any index. -/
def PathElement.Writable : PathElement → Prop
  | .field name => Field.isValid name = true
  | .index _ => True

theorem Field.new_eq_ok_iff {name : String} {field : Field} :
    Field.new name = .ok field ↔
      Field.isValid name = true ∧ field = ⟨strBytes name⟩ := by
  unfold Field.new
  split
  · rename_i valid
    simp [valid, eq_comm]
  · rename_i invalid
    simp [invalid]

namespace PathWriter

theorem push_eq_ok {self result : PathWriter} {element : PathElement}
    (pushed : self.push element = .ok result) :
    element.Writable ∧
      result.writer = self.writer ++ DELIMITER :: element.body := by
  cases element with
  | field name =>
      rcases bind_eq_ok_iff.mp pushed with ⟨field, created, pushed⟩
      rcases Field.new_eq_ok_iff.mp created with ⟨valid, rfl⟩
      rcases bind_eq_ok_iff.mp pushed with ⟨-, -, result⟩
      cases result
      exact ⟨valid, rfl⟩
  | index index =>
      rcases bind_eq_ok_iff.mp pushed with ⟨-, -, result⟩
      cases result
      exact ⟨trivial, rfl⟩

theorem pushAll_eq_ok {self result : PathWriter}
    {elements : List PathElement}
    (pushed : self.pushAll elements = .ok result) :
    (∀ element ∈ elements, element.Writable) ∧
      result.writer = self.writer ++ elementBytes elements := by
  induction elements generalizing self with
  | nil =>
      cases pushed
      simp
  | cons head tail induction =>
      unfold pushAll at pushed
      rw [List.foldlM_cons] at pushed
      rcases bind_eq_ok_iff.mp pushed with ⟨middle, first, others⟩
      rcases push_eq_ok first with ⟨headWritable, headBytes⟩
      rcases induction others with ⟨tailWritable, tailBytes⟩
      refine ⟨?_, by simp [tailBytes, headBytes]⟩
      simpa using ⟨headWritable, tailWritable⟩

theorem close_eq_ok {self : PathWriter} {terminator : Terminator}
    {bytes : Bytes} (closed : self.close terminator = .ok bytes) :
    bytes = self.writer ++ DELIMITER :: terminator.body := by
  cases terminator with
  | counter pid => exact (Except.ok.inj closed).symm
  | lww => exact (Except.ok.inj closed).symm
  | chunked endIndex =>
      rcases bind_eq_ok_iff.mp closed with ⟨-, -, result⟩
      exact (Except.ok.inj result).symm

end PathWriter

/-- The bytes of an open path, whenever the writer accepts it. -/
theorem writeElements_eq_ok {elements : List PathElement} {bytes : Bytes}
    (written : writeElements elements = .ok bytes) :
    (∀ element ∈ elements, element.Writable) ∧
      bytes = elementBytes elements := by
  rcases map_eq_ok_iff.mp written with ⟨result, pushed, rfl⟩
  exact PathWriter.pushAll_eq_ok pushed

/-- The bytes of a complete path, whenever the writer accepts it. -/
theorem writePath_eq_ok {elements : List PathElement}
    {terminator : Terminator} {bytes : Bytes}
    (written : writePath elements terminator = .ok bytes) :
    (∀ element ∈ elements, element.Writable) ∧
      bytes = elementBytes elements ++ DELIMITER :: terminator.body := by
  rcases bind_eq_ok_iff.mp written with ⟨result, pushed, closed⟩
  rcases PathWriter.pushAll_eq_ok pushed with ⟨writable, bytesPushed⟩
  refine ⟨writable, ?_⟩
  rw [PathWriter.close_eq_ok closed, bytesPushed]
  rfl

/-! ## One step of the reader -/

/-- The segment which the reader should yield for an element. -/
def PathElement.segment : PathElement → PathSegment
  | .field name => .field ⟨strBytes name⟩
  | .index position => .index position

/-- What the constructors of fields and of indices accept. -/
def PathElement.Accepted : PathElement → Prop
  | .field name => ∃ field, Field.new name = .ok field
  | .index position =>
      position.bytes ≠ [] ∧
        FractionalIndex.new position.bytes = .ok (some position)

theorem Field.isValid_iff {name : String} :
    Field.isValid name = true ↔ ∀ byte ∈ strBytes name, 32 ≤ byte := by
  simp [Field.isValid]

/-- The bytes of a field end at the delimiter behind it. -/
theorem PathReader.readField_append {bytes : Bytes}
    (valid : ∀ byte ∈ bytes, 32 ≤ byte) (after : Bytes) :
    PathReader.readField (bytes ++ DELIMITER :: after) =
      (some (.ok (.field ⟨bytes⟩)), DELIMITER :: after) := by
  have inside : ∀ byte ∈ bytes, (byte != DELIMITER) = true := by
    intro byte member
    have large := valid byte member
    simp only [bne_iff_ne, ne_eq, DELIMITER]
    rintro rfl
    exact absurd large (by decide)
  have shape :
      (bytes ++ DELIMITER :: after).span (· != DELIMITER) =
        (bytes, DELIMITER :: after) := by
    rw [List.span_eq_takeWhile_dropWhile,
      List.takeWhile_append_of_pos inside,
      List.dropWhile_append_of_pos inside]
    simp
  simp only [PathReader.readField, shape]

theorem PathReader.next_field {name : String}
    (valid : Field.isValid name = true) (after : Bytes) :
    PathReader.next (DELIMITER :: (strBytes name ++ DELIMITER :: after)) =
      .ok (some (.ok (.field ⟨strBytes name⟩)), DELIMITER :: after) := by
  have large := Field.isValid_iff.mp valid
  have read := PathReader.readField_append large after
  cases bytes : strBytes name with
  | nil =>
      rw [bytes] at read
      simpa [PathReader.next, DELIMITER, TERMINATOR_CHUNKED,
        TERMINATOR_LWW, TERMINATOR_COUNTER] using read
  | cons first others =>
      rw [bytes] at read large
      have firstLarge := large first List.mem_cons_self
      simp only [UInt8.le_iff_toNat_le, UInt8.reduceToNat] at firstLarge
      have distinct : ∀ tag : UInt8, tag.toNat < 32 → first ≠ tag := by
        rintro tag small rfl
        omega
      simp only [PathReader.next, List.cons_append, if_true,
        if_neg (distinct TERMINATOR_CHUNKED (by decide)),
        if_neg (distinct TERMINATOR_LWW (by decide)),
        if_neg (distinct TERMINATOR_COUNTER (by decide)),
        UInt8.le_iff_toNat_le, UInt8.lt_iff_toNat_lt,
        UInt8.reduceToNat]
      rw [if_neg (by omega), if_neg (by omega), ← List.cons_append, read]

/-- The first byte of an accepted index announces one to four bytes. -/
theorem FractionalIndex.head_of_new {first : UInt8} {others : Bytes}
    {index : FractionalIndex}
    (accepted :
      FractionalIndex.new (first :: others) = .ok (some index)) :
    1 ≤ first.toNat ∧ first.toNat ≤ 4 := by
  rcases FractionalIndex.new_eq_some_iff.mp accepted with
    ⟨-, segments, collected⟩
  unfold FractionalIndex.parts Segments.collect at collected
  rcases bind_eq_ok_iff.mp collected with ⟨⟨item, rest⟩, stepped, continued⟩
  unfold Segments.next at stepped
  rcases bind_eq_ok_iff.mp stepped with ⟨parsed, parse, stepped⟩
  cases parsed with
  | none =>
      cases stepped
      cases continued
  | some pair =>
      rcases pair with ⟨segment, rest⟩
      rcases Segment.parse_eq_some parse with
        ⟨pid, used, -, -, read, peer, -⟩
      simp only [VarInt.BE32.readFrom, VarInt.readFrom] at read
      by_cases wide : 4 < first.toNat
      · rw [if_pos wide] at read
        cases read
      · refine ⟨Nat.pos_of_ne_zero fun zero => ?_, by omega⟩
        simp [zero, slice] at read
        rcases read with ⟨rfl, rfl⟩
        have refused : PID.new (UInt32.ofNat (ofBeBytes [0, 0, 0, 0])) =
            none := by
          decide
        rw [refused] at peer
        cases peer

theorem PathReader.next_index {index : FractionalIndex}
    (nonempty : index.bytes ≠ [])
    (accepted : FractionalIndex.new index.bytes = .ok (some index))
    (after : Bytes) :
    PathReader.next (DELIMITER :: (index.bytes ++ DELIMITER :: after)) =
      .ok (some (.ok (.index index)), DELIMITER :: after) := by
  rcases index with ⟨bytes⟩
  have found :=
    FractionalIndex.fromBytes_append accepted nonempty after
  have read :
      PathReader.readFractionalIndex (bytes ++ DELIMITER :: after) =
        .ok (some (.ok (.index ⟨bytes⟩)), DELIMITER :: after) := by
    unfold PathReader.readFractionalIndex
    rw [found]
    simp
  cases bytes with
  | nil => exact absurd rfl nonempty
  | cons first others =>
      have small := FractionalIndex.head_of_new accepted
      have distinct : ∀ tag : UInt8, 4 < tag.toNat → first ≠ tag := by
        rintro tag large rfl
        omega
      simp only [PathReader.next, List.cons_append, if_true,
        if_neg (distinct TERMINATOR_CHUNKED (by decide)),
        if_neg (distinct TERMINATOR_LWW (by decide)),
        if_neg (distinct TERMINATOR_COUNTER (by decide)),
        UInt8.le_iff_toNat_le, UInt8.lt_iff_toNat_lt,
        UInt8.reduceToNat]
      rw [if_pos (by omega), ← List.cons_append, read]

theorem PathReader.next_tail (terminator : Terminator) :
    PathReader.next (DELIMITER :: terminator.body) =
      .ok (some (.ok (.tail terminator)), []) := by
  cases terminator with
  | counter pid =>
      have bound : pid.val.toNat < 256 ^ 4 := pid.val.toNat_lt
      simp [PathReader.next, Terminator.body, TERMINATOR_CHUNKED,
        TERMINATOR_LWW, TERMINATOR_COUNTER, PathReader.readCounter,
        PID.asBytes, ofBeBytes_beBytes bound]
  | lww => rfl
  | chunked endIndex =>
      have read := VarInt.U64.readFrom_write_append endIndex []
      rw [List.append_nil] at read
      simp [PathReader.next, Terminator.body, PathReader.readChunked,
        read, sliceFrom_of_le]

/-! ## The whole path -/

theorem PathReader.next_element {element : PathElement}
    (accepted : element.Accepted) (after : Bytes) :
    PathReader.next (DELIMITER :: (element.body ++ DELIMITER :: after)) =
      .ok (some (.ok element.segment), DELIMITER :: after) := by
  cases element with
  | field name =>
      rcases accepted with ⟨field, created⟩
      exact PathReader.next_field (Field.new_eq_ok_iff.mp created).1 after
  | index index =>
      exact PathReader.next_index accepted.1 accepted.2 after

theorem PathReader.items_succ {rounds : Nat} {buf rest : Bytes}
    {item : Except PathError PathSegment}
    (stepped : PathReader.next buf = .ok (some item, rest)) :
    PathReader.items (rounds + 1) buf =
      (fun pair => (item :: pair.1, pair.2)) <$>
        PathReader.items rounds rest := by
  rw [PathReader.items, stepped, ok_bind]
  dsimp only
  cases PathReader.items rounds rest with
  | error failure => rfl
  | ok pair => rfl

theorem elementBytes_append_delimiter (elements : List PathElement)
    (after : Bytes) :
    ∃ rest, elementBytes elements ++ DELIMITER :: after =
      DELIMITER :: rest := by
  cases elements with
  | nil => exact ⟨after, rfl⟩
  | cons head tail =>
      exact ⟨head.body ++ elementBytes tail ++ DELIMITER :: after, rfl⟩

theorem PathReader.items_elementBytes {elements : List PathElement}
    (accepted : ∀ element ∈ elements, element.Accepted)
    (terminator : Terminator) {rounds : Nat}
    (enough : elements.length + 1 < rounds) :
    PathReader.items rounds
        (elementBytes elements ++ DELIMITER :: terminator.body) =
      .ok (elements.map (fun element => .ok element.segment) ++
        [.ok (.tail terminator)], []) := by
  induction elements generalizing rounds with
  | nil =>
      rcases Nat.exists_eq_add_of_lt enough with ⟨rounds, rfl⟩
      rw [elementBytes_nil, List.nil_append,
        PathReader.items_succ (PathReader.next_tail terminator),
        List.length_nil, Nat.zero_add, Nat.add_comm]
      rfl
  | cons head tail induction =>
      rcases Nat.exists_eq_succ_of_ne_zero (Nat.ne_zero_of_lt enough) with
        ⟨rounds, rfl⟩
      have tailAccepted : ∀ element ∈ tail, element.Accepted :=
        fun element member =>
          accepted element (List.mem_cons_of_mem _ member)
      have tailEnough : tail.length + 1 < rounds := by
        simpa using enough
      have tailItems := induction tailAccepted tailEnough
      rcases elementBytes_append_delimiter tail terminator.body with
        ⟨rest, shape⟩
      rw [shape] at tailItems
      rw [elementBytes_cons, List.cons_append, List.append_assoc, shape,
        Nat.succ_eq_add_one,
        PathReader.items_succ (PathReader.next_element
          (accepted head List.mem_cons_self) rest), tailItems]
      rfl

/--
Whatever the writer accepts, the reader yields the elements in order, then
the terminator, then nothing more.
-/
theorem PathReader.items_writePath {elements : List PathElement}
    {terminator : Terminator} {bytes : Bytes}
    (accepted : ∀ element ∈ elements, element.Accepted)
    (written : writePath elements terminator = .ok bytes)
    {rounds : Nat} (enough : elements.length + 1 < rounds) :
    PathReader.items rounds bytes =
      .ok (elements.map (fun element => .ok element.segment) ++
        [.ok (.tail terminator)], []) := by
  rcases writePath_eq_ok written with ⟨-, rfl⟩
  exact PathReader.items_elementBytes accepted terminator enough

/--
An empty field beside an index whose sequence number has a zero byte in its
encoding, below a counter.
-/
theorem PathReader.items_writePath_mixed :
    PathReader.items 5
        [0, 97, 0, 0, 1, 7, 2, 1, 0, 0, 29, 0, 0, 0, 9] =
      .ok ([.ok (.field ⟨[97]⟩), .ok (.field ⟨[]⟩),
        .ok (.index ⟨[1, 7, 2, 1, 0]⟩), .ok (.tail (.counter ⟨9⟩))],
        []) := by
  have accepted : ∀ element ∈
      [PathElement.field "a", .field "", .index ⟨[1, 7, 2, 1, 0]⟩],
      element.Accepted := by
    intro element member
    simp only [List.mem_cons, List.not_mem_nil, or_false] at member
    rcases member with rfl | rfl | rfl
    · exact ⟨⟨[97]⟩, by decide⟩
    · exact ⟨⟨[]⟩, by decide⟩
    · exact ⟨by decide, by decide⟩
  have written :
      writePath [.field "a", .field "", .index ⟨[1, 7, 2, 1, 0]⟩]
          (.counter ⟨9⟩) =
        .ok [0, 97, 0, 0, 1, 7, 2, 1, 0, 0, 29, 0, 0, 0, 9] := by
    decide
  exact PathReader.items_writePath accepted written (by decide)

end Cdoc.Path
