import Cdoc.Path.RoundTrip
import Cdoc.WalFormat

/-!
# The length of a path

The writer counts bytes to keep a path within `i16::MAX`, since the log uses
the sign of a key length to mark commits.  The count misses the delimiter of
every index, the length byte of a chunk and all of the other terminators.
The limit is therefore kept by paths of fields which leave room for their
terminator, and by no others.
-/

namespace Cdoc.Path

open Cdoc.Foundation

/-- Elements whose bytes are counted completely. -/
def PathElement.isField : PathElement → Bool
  | .field _ => true
  | .index _ => false

/-- The bytes which a terminator adds, with its delimiter. -/
def Terminator.size : Terminator → Nat
  | .counter _ => 6
  | .lww => 2
  | .chunked endIndex => 3 + VarInt.byteLength 8 endIndex.toNat

/-- The key length which `write_record` derives from a key. -/
def updateKeyLen (key : Bytes) : UInt16 :=
  WalRecord.keyLen ⟨key, [], none⟩

/-- The promised length, the exact count, and an update which stays one. -/
structure WithinLimit (writer : PathWriter) (bytes : Bytes) : Prop where
  short : bytes.length ≤ 32767
  counted : writer.written = writer.writer.length
  update : updateKeyLen bytes &&& WriteAheadLog.COMMIT_BIT = 0

theorem Terminator.length_body (terminator : Terminator) :
    terminator.body.length + 1 = terminator.size := by
  cases terminator with
  | counter pid =>
      simp [Terminator.body, Terminator.size, PID.asBytes]
  | lww => rfl
  | chunked endIndex =>
      have fits : endIndex.toNat < 256 ^ 8 := endIndex.toNat_lt
      have length : (VarInt.U64.write endIndex).length =
          VarInt.byteLength 8 endIndex.toNat + 1 :=
        VarInt.length_write fits
      rw [Terminator.body, Terminator.size, List.length_cons, length]
      omega

/-! ## What the writer counts -/

/-- The indices among the elements. -/
def indexCount (elements : List PathElement) : Nat :=
  elements.countP (fun element => !element.isField)

/-- The bytes of the elements, each with its delimiter. -/
def elementsSize (elements : List PathElement) : Nat :=
  (elements.map fun element => 1 + element.body.length).sum

/-- What the writer adds to its count for an element. -/
def PathElement.counted : PathElement → Nat
  | .field name => 1 + (strBytes name).length
  | .index position => position.bytes.length

/-- The count leaves room for each element together with its delimiter. -/
def Fits : Nat → List PathElement → Prop
  | _, [] => True
  | count, element :: elements =>
      count + (1 + element.body.length) ≤ 32767 ∧
        Fits (count + element.counted) elements

instance decidableFits : (count : Nat) → (elements : List PathElement) →
    Decidable (Fits count elements)
  | _, [] => inferInstanceAs (Decidable True)
  | count, element :: elements =>
      have := decidableFits (count + element.counted) elements
      inferInstanceAs (Decidable (_ ∧ _))

/-- The count behind a list of elements. -/
def countedAll (elements : List PathElement) : Nat :=
  (elements.map PathElement.counted).sum

theorem fits_append {count : Nat} {first others : List PathElement} :
    Fits count (first ++ others) ↔
      Fits count first ∧ Fits (count + countedAll first) others := by
  induction first generalizing count with
  | nil => simp [Fits, countedAll]
  | cons head tail induction =>
      simp only [List.cons_append, Fits, induction, countedAll,
        List.map_cons, List.sum_cons, Nat.add_assoc, and_assoc]

theorem PathWriter.ensureCapacity_eq_ok_iff {self : PathWriter}
    {additional : Nat} :
    self.ensureCapacity additional = .ok () ↔
      self.written + additional ≤ 32767 := by
  unfold ensureCapacity
  split
  · simp
    omega
  · simp
    omega

/-- One element is accepted where it is writable and fits. -/
theorem PathWriter.push_eq_ok_iff {self result : PathWriter}
    {element : PathElement} :
    self.push element = .ok result ↔
      element.Writable ∧
        self.written + (1 + element.body.length) ≤ 32767 ∧
        result = ⟨self.writer ++ DELIMITER :: element.body,
          self.written + element.counted⟩ := by
  rw [← ensureCapacity_eq_ok_iff]
  cases element with
  | field name =>
      simp only [push, pushField, bind_eq_ok_iff, Field.new_eq_ok_iff,
        pure_eq_ok, Except.ok.injEq, PathElement.Writable,
        PathElement.body, PathElement.counted]
      constructor
      · rintro ⟨field, ⟨valid, rfl⟩, capacity, room, rfl⟩
        exact ⟨valid, room, rfl⟩
      · rintro ⟨valid, room, rfl⟩
        exact ⟨_, ⟨valid, rfl⟩, (), room, rfl⟩
  | index position =>
      simp only [push, pushIndex, bind_eq_ok_iff, pure_eq_ok,
        Except.ok.injEq, PathElement.Writable, PathElement.body,
        PathElement.counted, true_and]
      constructor
      · rintro ⟨capacity, room, rfl⟩
        exact ⟨room, rfl⟩
      · rintro ⟨room, rfl⟩
        exact ⟨(), room, rfl⟩

theorem PathWriter.pushAll_eq_ok_iff {self result : PathWriter}
    {elements : List PathElement} :
    self.pushAll elements = .ok result ↔
      (∀ element ∈ elements, element.Writable) ∧
        Fits self.written elements ∧
        result = ⟨self.writer ++ elementBytes elements,
          self.written + countedAll elements⟩ := by
  induction elements generalizing self with
  | nil => simp [pushAll, Fits, countedAll, eq_comm]
  | cons head tail induction =>
      have split : self.pushAll (head :: tail) =
          self.push head >>= fun w => w.pushAll tail := by
        rw [pushAll, List.foldlM_cons]
        rfl
      rw [split, bind_eq_ok_iff]
      simp only [push_eq_ok_iff, induction, List.forall_mem_cons, Fits,
        countedAll, List.map_cons, List.sum_cons, elementBytes_cons]
      constructor
      · rintro ⟨w, ⟨writable, room, rfl⟩, others, fits, rfl⟩
        refine ⟨⟨writable, others⟩, ⟨room, fits⟩, ?_⟩
        simp [Nat.add_assoc]
      · rintro ⟨⟨writable, others⟩, ⟨room, fits⟩, rfl⟩
        refine ⟨_, ⟨writable, room, rfl⟩, others, fits, ?_⟩
        simp [Nat.add_assoc]

/-- The count falls behind by one at every index. -/
theorem PathWriter.written_of_push {self result : PathWriter}
    {element : PathElement} (pushed : self.push element = .ok result) :
    result.written + indexCount [element] + self.writer.length =
      self.written + result.writer.length := by
  obtain ⟨-, -, rfl⟩ := push_eq_ok_iff.mp pushed
  cases element with
  | field name =>
      simp [indexCount, PathElement.isField, PathElement.body,
        PathElement.counted]
      omega
  | index index =>
      simp [indexCount, PathElement.isField, PathElement.body,
        PathElement.counted]
      omega

theorem PathWriter.written_of_pushAll {self result : PathWriter}
    {elements : List PathElement}
    (pushed : self.pushAll elements = .ok result) :
    result.written + indexCount elements + self.writer.length =
      self.written + result.writer.length := by
  induction elements generalizing self with
  | nil =>
      cases pushed
      rfl
  | cons head tail induction =>
      unfold pushAll at pushed
      rw [List.foldlM_cons] at pushed
      rcases bind_eq_ok_iff.mp pushed with ⟨middle, first, others⟩
      have now := written_of_push first
      have later := induction others
      have split : indexCount (head :: tail) =
          indexCount [head] + indexCount tail := by
        rw [indexCount, ← List.singleton_append, List.countP_append]
        rfl
      rw [split]
      omega

theorem indexCount_eq_zero_iff {elements : List PathElement} :
    indexCount elements = 0 ↔
      ∀ element ∈ elements, element.isField = true := by
  simp [indexCount, List.countP_eq_zero]

theorem length_elementBytes (elements : List PathElement) :
    (elementBytes elements).length = elementsSize elements := by
  induction elements with
  | nil => rfl
  | cons head tail induction =>
      rw [elementBytes_cons, List.length_cons, List.length_append,
        induction, elementsSize, elementsSize, List.map_cons,
        List.sum_cons]
      omega

/-! ## The limit -/

/--
The exact paths which keep the limit: no index, and room for the terminator.
-/
theorem PathWriter.withinLimit_iff {elements : List PathElement}
    {terminator : Terminator} {writer : PathWriter} {bytes : Bytes}
    (pushed : (PathWriter.new [] 0).pushAll elements = .ok writer)
    (closed : writer.close terminator = .ok bytes) :
    WithinLimit writer bytes ↔
      (∀ element ∈ elements, element.isField = true) ∧
        elementsSize elements + terminator.size ≤ 32767 := by
  have counted := written_of_pushAll pushed
  have buffer : writer.writer = elementBytes elements :=
    (pushAll_eq_ok pushed).2
  have start : (PathWriter.new [] 0).writer.length = 0 := rfl
  have zero : (PathWriter.new [] 0).written = 0 := rfl
  have length : bytes.length =
      elementsSize elements + terminator.size := by
    rw [close_eq_ok closed, buffer, List.length_append,
      length_elementBytes, List.length_cons, terminator.length_body]
  rw [← indexCount_eq_zero_iff]
  constructor
  · intro within
    have short := within.short
    have exact_ := within.counted
    exact ⟨by omega, by omega⟩
  · rintro ⟨none, room⟩
    have keyLen : (updateKeyLen bytes).toNat = bytes.length := by
      show (UInt16.ofNat bytes.length).toNat = bytes.length
      rw [UInt16.toNat_ofNat']
      exact Nat.mod_eq_of_lt (by omega)
    refine ⟨by omega, by omega, ?_⟩
    rw [WriteAheadLog.and_COMMIT_BIT_eq_zero_iff, keyLen]
    omega

theorem PathWriter.withinLimit_iff_short_field :
    ∃ writer bytes,
      (PathWriter.new [] 0).pushAll [.field "a"] = .ok writer ∧
      writer.close .lww = .ok bytes ∧ WithinLimit writer bytes := by
  have pushed : (PathWriter.new [] 0).pushAll [.field "a"] =
      .ok ⟨[0, 97], 2⟩ := by
    decide
  have closed : PathWriter.close ⟨[0, 97], 2⟩ .lww =
      .ok [0, 97, 0, 30] :=
    rfl
  exact ⟨_, _, pushed, closed,
    (withinLimit_iff pushed closed).mpr ⟨by decide, by decide⟩⟩

/-- A field of letters. -/
def letters (length : Nat) : String :=
  String.ofList (List.replicate length 'a')

theorem strBytes_letters (length : Nat) :
    strBytes (letters length) = List.replicate length 97 := by
  have single : String.utf8EncodeChar 'a' = [97] := by decide
  rw [strBytes, letters, String.toByteArray_ofList]
  simp [List.utf8Encode, List.flatMap_replicate, single]

theorem PathWriter.pushAll_field {name : String}
    (valid : Field.isValid name = true)
    (room : 1 + (strBytes name).length ≤ 32767) :
    (PathWriter.new [] 0).pushAll [.field name] =
      .ok ⟨DELIMITER :: strBytes name, 1 + (strBytes name).length⟩ := by
  have field : Field.new name = .ok ⟨strBytes name⟩ :=
    Field.new_eq_ok_iff.mpr ⟨valid, rfl⟩
  have capacity : (PathWriter.new [] 0).ensureCapacity
      (1 + (strBytes name).length) = .ok () := by
    rw [ensureCapacity, if_neg]
    show ¬ 0 + _ > _
    omega
  simp only [pushAll, List.foldlM_cons, List.foldlM_nil, push,
    pushField, field, ok_bind, capacity, pure_eq_ok]
  rw [Nat.add_comm]
  rfl

/-- A field which fills the limit leaves no room for its terminator. -/
theorem PathWriter.lww_of_full_field {name : String}
    (valid : Field.isValid name = true)
    (full : (strBytes name).length = 32766) :
    ∃ writer bytes,
      (PathWriter.new [] 0).pushAll [.field name] = .ok writer ∧
        writer.close .lww = .ok bytes ∧ bytes.length = 32769 ∧
        updateKeyLen bytes &&& WriteAheadLog.COMMIT_BIT ≠ 0 := by
  have length : (DELIMITER :: strBytes name ++
      [DELIMITER, TERMINATOR_LWW]).length = 32769 := by
    simp [full]
  refine ⟨_, _, pushAll_field valid (by omega), rfl, length, ?_⟩
  rw [Ne, WriteAheadLog.and_COMMIT_BIT_eq_zero_iff]
  show ¬ (UInt16.ofNat (DELIMITER :: strBytes name ++
    [DELIMITER, TERMINATOR_LWW]).length).toNat < 2 ^ 15
  rw [length]
  decide

/--
A key which is longer than the limit, and whose record looks like a commit.
An index which is not counted completely.
-/
theorem PathWriter.limit_missed :
    (∃ writer bytes,
      (PathWriter.new [] 0).pushAll [.field (letters 32766)] =
          .ok writer ∧
        writer.close .lww = .ok bytes ∧ bytes.length = 32769 ∧
        updateKeyLen bytes &&& WriteAheadLog.COMMIT_BIT ≠ 0) ∧
    ∃ writer,
      (PathWriter.new [] 0).pushAll [.index ⟨[1, 1, 1, 2]⟩] =
          .ok writer ∧
        writer.written = 4 ∧ writer.writer.length = 5 := by
  constructor
  · apply lww_of_full_field
    · rw [Field.isValid_iff, strBytes_letters]
      intro byte member
      rw [List.eq_of_mem_replicate member]
      decide
    · rw [strBytes_letters, List.length_replicate]
  · exact ⟨⟨[0, 1, 1, 1, 2], 4⟩, by decide, rfl, rfl⟩

end Cdoc.Path
