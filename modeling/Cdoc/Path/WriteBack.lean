import Cdoc.Path.Reading
import Cdoc.Path.Limit
import Cdoc.Path.KeyOrder

/-!
# Writing back what has been read

The reader checks less than the writer.  It takes the bytes of a field as
text without looking at them, it ignores what follows the terminator of a
value, and it reads integers with leading zero bytes.  Items which it yields
without an error are written back to the bytes they came from exactly when
the bytes make no use of this.
-/

namespace Cdoc.Path

open Cdoc.Foundation
open Cdoc.VarInt

/-! ## Layouts -/

/-- Parts, each behind a delimiter. -/
def partBytes (parts : List Part) : Bytes :=
  parts.flatMap fun part => DELIMITER :: part.bytes

theorem partBytes_cons (head : Part) (tail : List Part) :
    partBytes (head :: tail) = DELIMITER :: (head.bytes ++ partBytes tail) :=
  rfl

/-- Parts in front of the mark of a terminator. -/
structure Layout (buf : Bytes) (parts : List Part) (mark : UInt8)
    (rest : Bytes) : Prop where
  bytes : buf = partBytes parts ++ DELIMITER :: mark :: rest
  terminator : mark = TERMINATOR_COUNTER ∨ mark = TERMINATOR_LWW ∨
    mark = TERMINATOR_CHUNKED

/-- What the writer adds to its count for the bytes of a part. -/
def Part.counted : Part → Nat
  | .field bytes _ _ => 1 + bytes.length
  | .index head tail => (wideBytes (head :: tail)).length

/-- The count leaves room for the parts and for the terminator. -/
def PartsFit (closing : Nat) : Nat → List Part → Prop
  | count, [] => count + closing ≤ 32767
  | count, part :: parts =>
      count + (1 + part.bytes.length) ≤ 32767 ∧
        PartsFit closing (count + part.counted) parts

/-- The bytes of a terminator for which the writer makes room. -/
def closingSize (mark : UInt8) (rest : Bytes) : Nat :=
  if mark = TERMINATOR_CHUNKED then 1 + rest.length else 0

/-- No byte is passed by the reader which the writer would not write. -/
structure Slackless (parts : List Part) (mark : UInt8) (rest : Bytes) :
    Prop where
  text : ∀ bytes inside first, Part.field bytes inside first ∈ parts →
    ∃ name, Field.isValid name = true ∧ strBytes name = bytes
  lww : mark = TERMINATOR_LWW → rest = []
  counter : mark = TERMINATOR_COUNTER → ofBeBytes rest ≠ 0
  chunked : mark = TERMINATOR_CHUNKED →
    ∃ endIndex, rest = U64.write endIndex
  room : PartsFit (closingSize mark rest) 0 parts

/-! ## The terminator -/

/-- The terminator behind a mark, and the bytes behind the terminator. -/
inductive Closes : UInt8 → Bytes → Terminator → Bytes → Prop
  | lww (rest : Bytes) : Closes TERMINATOR_LWW rest .lww []
  | counter (pid : Bytes) (whole : pid.length = 4) :
      Closes TERMINATOR_COUNTER pid
        (.counter ⟨UInt32.ofNat (ofBeBytes pid)⟩) []
  | chunked (data rest : Bytes) (short : data.length ≤ 8) :
      Closes TERMINATOR_CHUNKED (announced data ++ rest)
        (.chunked (UInt64.ofNat (ofBeBytes data))) rest

namespace PathReader

theorem closes_of_next {mark : UInt8} {rest left : Bytes}
    {segment : PathSegment}
    (terminator : mark = TERMINATOR_COUNTER ∨ mark = TERMINATOR_LWW ∨
      mark = TERMINATOR_CHUNKED)
    (stepped : next (DELIMITER :: mark :: rest) =
      .ok (some (.ok segment), left)) :
    ∃ last, segment = .tail last ∧ Closes mark rest last left := by
  rcases terminator with rfl | rfl | rfl
  · by_cases whole : rest.length = 4
    · rw [next_counter whole] at stepped
      cases stepped
      exact ⟨_, rfl, Closes.counter rest whole⟩
    · rw [next_brokenCounter whole] at stepped
      cases stepped
  · cases stepped
    exact ⟨_, rfl, Closes.lww rest⟩
  · rcases announced_or_cut 8 rest with
      ⟨data, behind, short, rfl⟩ | unreadable | cut
    · rw [next_chunked short] at stepped
      cases stepped
      exact ⟨_, rfl, Closes.chunked data _ short⟩
    · rw [next_brokenChunk unreadable] at stepped
      cases stepped
    · rw [next_cutChunk cut] at stepped
      cases stepped

end PathReader

/-- Without slack the terminator is written as it stands. -/
theorem Closes.exact_iff {mark : UInt8} {rest left : Bytes}
    {last : Terminator} (closes : Closes mark rest last left) :
    ((mark = TERMINATOR_LWW → rest = []) ∧
      (mark = TERMINATOR_COUNTER → ofBeBytes rest ≠ 0) ∧
      (mark = TERMINATOR_CHUNKED → ∃ endIndex, rest = U64.write endIndex)) ↔
    mark :: rest = last.body ∧
      ∀ pid, last = .counter pid → pid.val ≠ 0 := by
  cases closes with
  | lww rest =>
      simp [Terminator.body, TERMINATOR_LWW, TERMINATOR_COUNTER,
        TERMINATOR_CHUNKED]
  | counter pid whole =>
      have number : (UInt32.ofNat (ofBeBytes rest)).toNat =
          ofBeBytes rest :=
        WideSegment.toNat_ofBeBytes whole.le
      have body : TERMINATOR_COUNTER :: rest =
          (Terminator.counter ⟨UInt32.ofNat (ofBeBytes rest)⟩).body := by
        rw [Terminator.body, PID.asBytes, number, ← whole,
          beBytes_ofBeBytes]
      have zero : UInt32.ofNat (ofBeBytes rest) = 0 ↔
          ofBeBytes rest = 0 := by
        rw [← UInt32.toNat_inj, number]
        rfl
      constructor
      · rintro ⟨-, nonzero, -⟩
        refine ⟨body, fun pid same peerZero => ?_⟩
        cases same
        exact nonzero rfl (zero.mp peerZero)
      · rintro ⟨-, nonzero⟩
        refine ⟨fun other => absurd other (by decide), fun _ same => ?_,
          fun other => absurd other (by decide)⟩
        exact nonzero _ rfl (zero.mpr same)
  | chunked data behind short =>
      constructor
      · rintro ⟨-, -, canonical⟩
        obtain ⟨endIndex, written⟩ := canonical rfl
        have read : U64.readFrom (announced data ++ left) = _ :=
          readFrom_announced (by decide) short left
        have again := U64.readFrom_write_append endIndex []
        rw [List.append_nil, ← written, read] at again
        simp only [Except.ok.injEq, Option.some.injEq, Prod.mk.injEq]
          at again
        constructor
        · rw [written, Terminator.body, again.1, UInt64.ofNat_toNat]
        · intro pid other
          cases other
      · rintro ⟨body, -⟩
        refine ⟨fun other => absurd other (by decide),
          fun other => absurd other (by decide), fun _ => ?_⟩
        exact ⟨UInt64.ofNat (ofBeBytes data), (List.cons.inj body).2⟩

/-- Nothing is left behind a terminator without slack. -/
theorem Closes.left_eq_nil {mark : UInt8} {rest left : Bytes}
    {last : Terminator} (closes : Closes mark rest last left)
    (body : mark :: rest = last.body) : left = [] := by
  cases closes with
  | lww rest => rfl
  | counter pid whole => rfl
  | chunked data behind short =>
      have fits : (UInt64.ofNat (ofBeBytes data)).toNat < 256 ^ 8 :=
        UInt64.toNat_lt _
      have number : (UInt64.ofNat (ofBeBytes data)).toNat =
          ofBeBytes data := by
        rw [UInt64.toNat_ofNat']
        exact Nat.mod_eq_of_lt ((ofBeBytes_lt data).trans_le
          (Nat.pow_le_pow_right (by decide : 0 < 256) short))
      have least := byteLength_le_length short
      have lengths := congrArg List.length (List.cons.inj body).2
      rw [List.length_append, length_announced, U64.write,
        length_write fits, number] at lengths
      exact List.eq_nil_of_length_eq_zero (by omega)

/-! ## The items of a layout -/

/-- A delimiter ends every part. -/
theorem Part.before_delimiter (part : Part) (rest : Bytes) :
    part.Before (DELIMITER :: rest) := by
  cases part with
  | field bytes inside first =>
      intro byte head
      cases head
      rfl
  | index head tail =>
      exact Or.inr ⟨[], rest, Nat.zero_le _, rfl, rfl⟩

theorem length_le_length_partBytes (parts : List Part) :
    parts.length ≤ (partBytes parts).length := by
  induction parts with
  | nil => simp
  | cons head tail induction =>
      rw [partBytes_cons, List.length_cons, List.length_cons,
        List.length_append]
      omega

namespace PathReader

theorem items_partBytes (parts : List Part) (mark : UInt8) (rest : Bytes)
    (rounds : Nat) :
    items (parts.length + rounds)
        (partBytes parts ++ DELIMITER :: mark :: rest) =
      (fun pair => (parts.map (fun part => .ok part.segment) ++ pair.1,
        pair.2)) <$> items rounds (DELIMITER :: mark :: rest) := by
  induction parts with
  | nil =>
      rw [List.length_nil, Nat.zero_add]
      exact (id_map _).symm
  | cons head tail induction =>
      obtain ⟨behind, shape⟩ : ∃ behind,
          partBytes tail ++ DELIMITER :: mark :: rest =
            DELIMITER :: behind := by
        cases tail with
        | nil => exact ⟨mark :: rest, rfl⟩
        | cons next others => exact ⟨_, rfl⟩
      have stepped := next_part head (head.before_delimiter behind)
        (by simp)
      rw [List.length_cons, Nat.add_right_comm, partBytes_cons,
        List.cons_append, List.append_assoc, shape,
        items_succ stepped, ← shape, induction]
      cases items rounds (DELIMITER :: mark :: rest) <;> rfl

/-- Items without an error, one of them a terminator, have a layout. -/
theorem exists_layout {rounds : Nat} {buf stop : Bytes}
    {yielded : List (Except PathError PathSegment)}
    (ended : items rounds buf = .ok (yielded, stop))
    (clean : ∀ item ∈ yielded, ∃ segment, item = .ok segment)
    (closed : ∃ last, .ok (.tail last) ∈ yielded) :
    ∃ parts mark rest, Layout buf parts mark rest := by
  induction rounds generalizing buf yielded stop with
  | zero => cases ended
  | succ rounds induction =>
      rw [items, bind_eq_ok_iff] at ended
      obtain ⟨⟨item, left⟩, stepped, continued⟩ := ended
      cases item with
      | none =>
          cases continued
          obtain ⟨last, member⟩ := closed
          cases member
      | some item =>
          dsimp only at continued
          rw [bind_eq_ok_iff] at continued
          obtain ⟨⟨others, final⟩, ended, result⟩ := continued
          cases result
          obtain ⟨segment, rfl⟩ := clean item List.mem_cons_self
          cases reads_of_next stepped with
          | part part rest before nonempty =>
              obtain ⟨last, member⟩ := closed
              have later : .ok (.tail last) ∈ others := by
                rcases List.mem_cons.mp member with same | later
                · cases part <;> cases same
                · exact later
              obtain ⟨parts, mark, rest, layout⟩ := induction ended
                (fun item member =>
                  clean item (List.mem_cons_of_mem _ member)) ⟨last, later⟩
              refine ⟨part :: parts, mark, rest, ?_, layout.terminator⟩
              rw [partBytes_cons, layout.bytes, List.cons_append,
                List.append_assoc]
          | lww rest =>
              exact ⟨[], _, rest, rfl, Or.inr (Or.inl rfl)⟩
          | counter pid whole => exact ⟨[], _, pid, rfl, Or.inl rfl⟩
          | chunked data rest short =>
              exact ⟨[], _, _, rfl, Or.inr (Or.inr rfl)⟩

end PathReader

/-! ## Elements for parts -/

/-- The constructors of fields and of indices accept the element. -/
def PathElement.Valid : PathElement → Prop
  | .field name => ∃ field, Field.new name = .ok field
  | .index position =>
      FractionalIndex.new position.bytes = .ok (some position)

theorem PathElement.Valid.writable {element : PathElement}
    (valid : element.Valid) : element.Writable := by
  cases element with
  | field name =>
      obtain ⟨field, created⟩ := valid
      exact (Field.new_eq_ok_iff.mp created).1
  | index position => trivial

/-- An element which is read from a part has its bytes. -/
theorem Part.eq_of_segment {element : PathElement} {part : Part}
    (same : element.segment = part.segment) :
    element.body = part.bytes ∧ element.counted = part.counted := by
  cases element with
  | field name =>
      cases part with
      | field bytes inside first =>
          cases same
          exact ⟨rfl, rfl⟩
      | index head tail => cases same
  | index position =>
      cases part with
      | field bytes inside first => cases same
      | index head tail =>
          cases same
          exact ⟨rfl, rfl⟩

/-- Parts with text for fields are those of valid elements. -/
theorem exists_elements_iff (parts : List Part) :
    (∃ elements : List PathElement, elements.map PathElement.segment =
        parts.map Part.segment ∧ ∀ element ∈ elements, element.Valid) ↔
      ∀ bytes inside first, Part.field bytes inside first ∈ parts →
        ∃ name, Field.isValid name = true ∧ strBytes name = bytes := by
  constructor
  · rintro ⟨elements, same, valid⟩ bytes inside first member
    have found : PathSegment.field ⟨bytes⟩ ∈
        elements.map PathElement.segment := by
      rw [same]
      exact List.mem_map.mpr ⟨_, member, rfl⟩
    obtain ⟨element, elementMember, segment⟩ := List.mem_map.mp found
    cases element with
    | field name =>
        obtain ⟨field, created⟩ := valid _ elementMember
        cases segment
        exact ⟨name, (Field.new_eq_ok_iff.mp created).1, rfl⟩
    | index position => cases segment
  · intro text
    induction parts with
    | nil => exact ⟨[], rfl, by simp⟩
    | cons head tail induction =>
        obtain ⟨elements, same, valid⟩ := induction
          fun bytes inside first member =>
            text bytes inside first (List.mem_cons_of_mem _ member)
        obtain ⟨element, segment, accepted⟩ : ∃ element : PathElement,
            element.segment = head.segment ∧ element.Valid := by
          cases head with
          | field bytes inside first =>
              obtain ⟨name, isValid, rfl⟩ :=
                text bytes inside first List.mem_cons_self
              exact ⟨.field name, rfl, _,
                Field.new_eq_ok_iff.mpr ⟨isValid, rfl⟩⟩
          | index head tail =>
              exact ⟨.index ⟨wideBytes (head :: tail)⟩, rfl,
                FractionalIndex.new_wideBytes (head :: tail)⟩
        refine ⟨element :: elements, ?_, ?_⟩
        · rw [List.map_cons, List.map_cons, segment, same]
        · exact List.forall_mem_cons.mpr ⟨accepted, valid⟩

theorem elementBytes_eq_partBytes {elements : List PathElement}
    {parts : List Part}
    (same : elements.map PathElement.segment = parts.map Part.segment) :
    elementBytes elements = partBytes parts := by
  induction elements generalizing parts with
  | nil =>
      cases parts with
      | nil => rfl
      | cons => cases same
  | cons element elements induction =>
      cases parts with
      | nil => cases same
      | cons part parts =>
          obtain ⟨head, tail⟩ := List.cons.inj same
          rw [elementBytes_cons, partBytes_cons, induction tail,
            (Part.eq_of_segment head).1]

/-- The writer has room for elements as for the parts they come from. -/
theorem partsFit_iff {elements : List PathElement} {parts : List Part}
    (same : elements.map PathElement.segment = parts.map Part.segment)
    (closing count : Nat) :
    PartsFit closing count parts ↔
      Fits count elements ∧
        count + countedAll elements + closing ≤ 32767 := by
  induction elements generalizing parts count with
  | nil =>
      cases parts with
      | nil => simp [PartsFit, Fits, countedAll]
      | cons => cases same
  | cons element elements induction =>
      cases parts with
      | nil => cases same
      | cons part parts =>
          obtain ⟨head, tail⟩ := List.cons.inj same
          obtain ⟨body, counted⟩ := Part.eq_of_segment head
          rw [PartsFit, Fits, induction tail, body, counted, and_assoc,
            countedAll, countedAll, List.map_cons, List.sum_cons, counted,
            ← Nat.add_assoc count part.counted]

/-! ## Writing -/

/-- The bytes of a terminator which the writer checks for. -/
def Terminator.checked : Terminator → Nat
  | .counter _ => 0
  | .lww => 0
  | .chunked endIndex => 2 + byteLength 8 endIndex.toNat

theorem closingSize_eq_checked {mark : UInt8} {rest : Bytes}
    {last : Terminator} (body : mark :: rest = last.body) :
    closingSize mark rest = last.checked := by
  cases last with
  | counter pid =>
      cases body
      rfl
  | lww =>
      cases body
      rfl
  | chunked endIndex =>
      have fits : endIndex.toNat < 256 ^ 8 := endIndex.toNat_lt
      cases body
      rw [closingSize, if_pos rfl, U64.write, length_write fits,
        Terminator.checked]
      omega

theorem Fits.counted_le {count : Nat} {elements : List PathElement}
    (small : count ≤ 32767) (fits : Fits count elements) :
    count + countedAll elements ≤ 32767 := by
  induction elements generalizing count with
  | nil => exact small
  | cons element elements induction =>
      obtain ⟨room, others⟩ := fits
      have counted : element.counted ≤ 1 + element.body.length := by
        cases element with
        | field name => exact le_rfl
        | index position => exact Nat.le_add_left _ _
      have all := induction (by omega) others
      rw [countedAll, List.map_cons, List.sum_cons, ← Nat.add_assoc]
      exact all

/-- When a complete path is written. -/
theorem writePath_eq_ok_iff {elements : List PathElement}
    {last : Terminator} {bytes : Bytes} :
    writePath elements last = .ok bytes ↔
      (∀ element ∈ elements, element.Writable) ∧ Fits 0 elements ∧
        0 + countedAll elements + last.checked ≤ 32767 ∧
        bytes = elementBytes elements ++ DELIMITER :: last.body := by
  constructor
  · intro written
    obtain ⟨w, pushed, closed⟩ := bind_eq_ok_iff.mp written
    obtain ⟨writable, fits, rfl⟩ := PathWriter.pushAll_eq_ok_iff.mp pushed
    refine ⟨writable, fits, ?_, PathWriter.close_eq_ok closed⟩
    cases last with
    | counter pid => exact fits.counted_le (Nat.zero_le _)
    | lww => exact fits.counted_le (Nat.zero_le _)
    | chunked endIndex =>
        obtain ⟨_, room, -⟩ := bind_eq_ok_iff.mp closed
        exact PathWriter.ensureCapacity_eq_ok_iff.mp room
  · rintro ⟨writable, fits, room, rfl⟩
    rw [writePath, PathWriter.pushAll_eq_ok_iff.mpr ⟨writable, fits, rfl⟩,
      ok_bind]
    cases last with
    | counter pid => rfl
    | lww => rfl
    | chunked endIndex =>
        rw [PathWriter.close, PathWriter.lwwChunked]
        dsimp only
        rw [PathWriter.ensureCapacity_eq_ok_iff.mpr room]
        rfl

/-! ## Back and forth -/

namespace PathReader

/-- The iterator yields these items, no error and some terminator. -/
structure Clean (buf : Bytes)
    (yielded : List (Except PathError PathSegment)) : Prop where
  ended : ∃ stop, items (buf.length + 1) buf = .ok (yielded, stop)
  noError : ∀ item ∈ yielded, ∃ segment, item = .ok segment
  closed : ∃ last, .ok (.tail last) ∈ yielded

/--
The terminator is the last item, the items before it are accepted by their
constructors, and the writer makes the same bytes of them.
-/
def WritesBack (buf : Bytes)
    (yielded : List (Except PathError PathSegment)) : Prop :=
  ∃ elements last,
    yielded = elements.map (fun element => .ok element.segment) ++
        [.ok (.tail last)] ∧
      (∀ element ∈ elements, element.Valid) ∧
      (∀ pid, last = .counter pid → pid.val ≠ 0) ∧
      writePath elements last = .ok buf

/-- The items of a layout are its parts and its terminator, at least. -/
theorem Clean.items_eq {buf : Bytes}
    {yielded : List (Except PathError PathSegment)}
    (clean : Clean buf yielded) {parts : List Part} {mark : UInt8}
    {rest : Bytes} (layout : Layout buf parts mark rest) :
    ∃ last left others, Closes mark rest last left ∧
      yielded = parts.map (fun part => .ok part.segment) ++
        .ok (.tail last) :: others ∧
      (left = [] → others = []) := by
  obtain ⟨stop, ended⟩ := clean.ended
  have long := length_le_length_partBytes parts
  obtain ⟨rounds, enough⟩ : ∃ rounds,
      buf.length + 1 = parts.length + (rounds + 2) := by
    rw [layout.bytes, List.length_append, List.length_cons,
      List.length_cons]
    exact ⟨(partBytes parts).length + rest.length + 1 - parts.length,
      by omega⟩
  rw [enough, layout.bytes, items_partBytes, map_eq_ok_iff] at ended
  obtain ⟨⟨behind, final⟩, ended, shape⟩ := ended
  cases shape
  rw [items, bind_eq_ok_iff] at ended
  obtain ⟨⟨item, left⟩, stepped, continued⟩ := ended
  cases item with
  | none =>
      have short := short_of_next stepped
      rw [List.length_cons, List.length_cons] at short
      omega
  | some item =>
      dsimp only at continued
      obtain ⟨⟨others, last⟩, ended, result⟩ := bind_eq_ok_iff.mp continued
      cases result
      obtain ⟨segment, rfl⟩ := clean.noError item (by simp)
      obtain ⟨terminator, rfl, closes⟩ :=
        closes_of_next layout.terminator stepped
      refine ⟨terminator, left, others, closes, rfl, ?_⟩
      rintro rfl
      cases ended
      rfl

/-- Two lists of items are equal up to their first terminator. -/
theorem eq_of_items {elements : List PathElement} {parts : List Part}
    {last terminator : Terminator}
    {others : List (Except PathError PathSegment)}
    (same : parts.map (fun part => .ok part.segment) ++
        .ok (.tail terminator) :: others =
      elements.map (fun element => .ok element.segment) ++
        [.ok (.tail last)]) :
    elements.map PathElement.segment = parts.map Part.segment ∧
      last = terminator ∧ others = [] := by
  induction elements generalizing parts with
  | nil =>
      cases parts with
      | nil =>
          cases same
          exact ⟨rfl, rfl, rfl⟩
      | cons part parts =>
          have impossible := (List.cons.inj same).1
          cases part <;> cases impossible
  | cons element elements induction =>
      cases parts with
      | nil =>
          have impossible := (List.cons.inj same).1
          cases element <;> cases impossible
      | cons part parts =>
          obtain ⟨head, tail⟩ := List.cons.inj same
          obtain ⟨segments, rest⟩ := induction tail
          refine ⟨?_, rest⟩
          rw [List.map_cons, List.map_cons, segments,
            Except.ok.inj head]

/-- A layout is written back exactly when it has no slack. -/
theorem Clean.writesBack_iff {buf : Bytes}
    {yielded : List (Except PathError PathSegment)}
    (clean : Clean buf yielded) {parts : List Part} {mark : UInt8}
    {rest : Bytes} (layout : Layout buf parts mark rest) :
    WritesBack buf yielded ↔ Slackless parts mark rest := by
  obtain ⟨terminator, left, others, closes, shape, nothing⟩ :=
    clean.items_eq layout
  have exact_ := closes.exact_iff
  constructor
  · rintro ⟨elements, last, items, valid, nonzero, written⟩
    rw [shape] at items
    obtain ⟨segments, rfl, -⟩ := eq_of_items items
    obtain ⟨-, fits, room, bytes⟩ := writePath_eq_ok_iff.mp written
    have body : mark :: rest = last.body := by
      rw [layout.bytes, elementBytes_eq_partBytes segments] at bytes
      exact (List.cons.inj (List.append_cancel_left bytes)).2
    obtain ⟨lww, counter, chunked⟩ := exact_.mpr ⟨body, nonzero⟩
    refine ⟨(exists_elements_iff parts).mp ⟨elements, segments, valid⟩,
      lww, counter, chunked, ?_⟩
    rw [partsFit_iff segments, closingSize_eq_checked body]
    exact ⟨fits, room⟩
  · intro slackless
    obtain ⟨body, nonzero⟩ := exact_.mp
      ⟨slackless.lww, slackless.counter, slackless.chunked⟩
    obtain ⟨elements, segments, valid⟩ :=
      (exists_elements_iff parts).mpr slackless.text
    have room := slackless.room
    rw [partsFit_iff segments, closingSize_eq_checked body] at room
    refine ⟨elements, terminator, ?_, valid, nonzero,
      writePath_eq_ok_iff.mpr
        ⟨fun element member => (valid element member).writable, room.1,
          room.2, ?_⟩⟩
    · have items := congrArg (List.map (Except.ok (ε := PathError))) segments
      rw [List.map_map, List.map_map] at items
      rw [shape, nothing (closes.left_eq_nil body)]
      exact congrArg (· ++ [.ok (.tail terminator)]) items.symm
    · rw [layout.bytes, elementBytes_eq_partBytes segments, body]

/-- The bytes of items which are written back are determined. -/
theorem WritesBack.unique {buf other : Bytes}
    {yielded : List (Except PathError PathSegment)}
    (back : WritesBack buf yielded) (otherBack : WritesBack other yielded) :
    other = buf := by
  obtain ⟨elements, last, items, -, -, written⟩ := back
  obtain ⟨others, otherLast, otherItems, -, -, otherWritten⟩ := otherBack
  rw [items] at otherItems
  obtain ⟨same, sameLast⟩ := List.append_inj' otherItems rfl
  cases sameLast
  have injective : Function.Injective fun element : PathElement =>
      Except.ok (ε := PathError) element.segment :=
    fun _ _ equal => PathElement.segment_injective (Except.ok.inj equal)
  rw [List.map_injective_iff.mpr injective same, otherWritten] at written
  exact Except.ok.inj written

/-- No layout of the bytes has slack. -/
def SlackFree (buf : Bytes) : Prop :=
  ∀ parts mark rest, Layout buf parts mark rest → Slackless parts mark rest

/--
Items without an error are written back exactly when their bytes have no
slack, and then no other such bytes are read alike.
-/
theorem writesBack_iff_slackFree {buf : Bytes}
    {yielded : List (Except PathError PathSegment)}
    (clean : Clean buf yielded) :
    (WritesBack buf yielded ↔ SlackFree buf) ∧
      (SlackFree buf → ∀ other, Clean other yielded → SlackFree other →
        other = buf) := by
  have iff : ∀ {bytes}, Clean bytes yielded →
      (WritesBack bytes yielded ↔ SlackFree bytes) := by
    intro bytes clean
    constructor
    · intro back parts mark rest layout
      exact (clean.writesBack_iff layout).mp back
    · intro slackFree
      obtain ⟨stop, ended⟩ := clean.ended
      obtain ⟨parts, mark, rest, layout⟩ :=
        exists_layout ended clean.noError clean.closed
      exact (clean.writesBack_iff layout).mpr
        (slackFree parts mark rest layout)
  refine ⟨iff clean, fun slackFree other otherClean otherFree => ?_⟩
  exact ((iff clean).mpr slackFree).unique ((iff otherClean).mpr otherFree)

/-- A field below a counter. -/
theorem writesBack_iff_slackFree_counter :
    ∃ yielded, Clean [0, 97, 0, 29, 0, 0, 0, 9] yielded ∧
      SlackFree [0, 97, 0, 29, 0, 0, 0, 9] := by
  have clean : Clean [0, 97, 0, 29, 0, 0, 0, 9]
      [.ok (.field ⟨[97]⟩), .ok (.tail (.counter ⟨9⟩))] := by
    refine ⟨⟨[], by decide⟩, ?_, ⟨.counter ⟨9⟩, by simp⟩⟩
    intro item member
    simp only [List.mem_cons, List.not_mem_nil, or_false] at member
    rcases member with rfl | rfl
    · exact ⟨_, rfl⟩
    · exact ⟨_, rfl⟩
  refine ⟨_, clean, (writesBack_iff_slackFree clean).1.mp
    ⟨[.field "a"], .counter ⟨9⟩, by decide, ?_, ?_, by decide⟩⟩
  · intro element member
    rw [List.mem_singleton] at member
    subst member
    exact ⟨⟨[97]⟩, by decide⟩
  · intro pid same
    cases same
    decide

/-- Bytes behind the terminator of a value are passed over. -/
theorem readAlike_slack :
    Clean [0, 30] [.ok (.tail .lww)] ∧
      Clean [0, 30, 1] [.ok (.tail .lww)] ∧
      ¬ WritesBack [0, 30, 1] [.ok (.tail .lww)] := by
  have noError : ∀ item ∈ [Except.ok (ε := PathError) (PathSegment.tail
      .lww)], ∃ segment, item = .ok segment := by
    intro item member
    rw [List.mem_singleton] at member
    exact ⟨_, member⟩
  refine ⟨⟨⟨[], by decide⟩, noError, ⟨.lww, by simp⟩⟩,
    ⟨⟨[], by decide⟩, noError, ⟨.lww, by simp⟩⟩, ?_⟩
  rintro ⟨elements, last, items, -, -, written⟩
  rw [← List.nil_append [_]] at items
  obtain ⟨none, sameLast⟩ := List.append_inj' items rfl
  cases sameLast
  cases List.map_eq_nil_iff.mp none.symm
  cases written

end PathReader

end Cdoc.Path
