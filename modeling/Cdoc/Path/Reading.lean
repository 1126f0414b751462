import Cdoc.Path.WideSegments

/-!
# The reader on arbitrary bytes

Stored keys may be damaged, so the reader of paths meets arbitrary bytes.
`Reads` lists what one step of it can do.  A part which it recognises is
consumed.  An unknown mark behind a delimiter, or a byte where a delimiter
is expected, is reported and stays where it is; the next step reports it
again.

The reader therefore comes to an end on the byte strings which `Laid`
describes, and on no others.
-/

namespace Cdoc.Path

open Cdoc.Foundation
open Cdoc.VarInt

/-! ## One step -/

/-- A field or an index as it stands behind a delimiter. -/
inductive Part where
  | field (bytes : Bytes) (inside : ∀ byte ∈ bytes, byte ≠ DELIMITER)
      (first : ∀ byte ∈ bytes.head?, 32 ≤ byte)
  | index (head : WideSegment) (tail : List WideSegment)

namespace Part

/-- The bytes of a part, without the delimiter in front of a field. -/
def bytes : Part → Bytes
  | .field bytes _ _ => bytes
  | .index head tail => wideBytes (head :: tail)

/-- What the reader returns for a part. -/
def segment : Part → PathSegment
  | .field bytes _ _ => .field ⟨bytes⟩
  | .index head tail => .index ⟨wideBytes (head :: tail)⟩

/-- The part ends in front of these bytes. -/
def Before : Part → Bytes → Prop
  | .field _ _ _, rest => ∀ byte ∈ rest.head?, byte = DELIMITER
  | .index _ _, rest => NoPeer rest

end Part

/-- What one step of the reader yields, and the bytes it leaves. -/
inductive Reads : Bytes → Except PathError PathSegment → Bytes → Prop
  | part (part : Part) (rest : Bytes) (before : part.Before rest)
      (nonempty : part.bytes ++ rest ≠ []) :
      Reads (DELIMITER :: (part.bytes ++ rest)) (.ok part.segment) rest
  | lww (rest : Bytes) :
      Reads (DELIMITER :: TERMINATOR_LWW :: rest) (.ok (.tail .lww)) []
  | counter (pid : Bytes) (whole : pid.length = 4) :
      Reads (DELIMITER :: TERMINATOR_COUNTER :: pid)
        (.ok (.tail (.counter ⟨UInt32.ofNat (ofBeBytes pid)⟩))) []
  | brokenCounter (rest : Bytes) (broken : rest.length ≠ 4) :
      Reads (DELIMITER :: TERMINATOR_COUNTER :: rest)
        (.error .varInt) rest
  | chunked (data rest : Bytes) (short : data.length ≤ 8) :
      Reads (DELIMITER :: TERMINATOR_CHUNKED :: (announced data ++ rest))
        (.ok (.tail (.chunked (UInt64.ofNat (ofBeBytes data))))) rest
  | brokenChunk (rest : Bytes) (unreadable : Unreadable 8 rest) :
      Reads (DELIMITER :: TERMINATOR_CHUNKED :: rest)
        (.error .varInt) rest
  | unknown (error : PathError) (mark : UInt8) (rest : Bytes)
      (nonzero : mark ≠ DELIMITER) (small : mark < TERMINATOR_COUNTER)
      (whole : ¬ Cut 4 (mark :: rest)) :
      Reads (DELIMITER :: mark :: rest) (.error error) (mark :: rest)
  | misplaced (first second : UInt8) (rest : Bytes)
      (nonzero : first ≠ DELIMITER) :
      Reads (first :: second :: rest) (.error (.delimiter first))
        (first :: second :: rest)

namespace PathReader

theorem next_of_short {buf : Bytes} (short : buf.length < 2) :
    next buf = .ok (none, buf) := by
  match buf, short with
  | [], _ => rfl
  | [_], _ => rfl

/-- A field ends at the next delimiter, or with the bytes. -/
theorem readField_before {bytes rest : Bytes}
    (inside : ∀ byte ∈ bytes, byte ≠ DELIMITER)
    (before : ∀ byte ∈ rest.head?, byte = DELIMITER) :
    readField (bytes ++ rest) = (some (.ok (.field ⟨bytes⟩)), rest) := by
  have kept : ∀ byte ∈ bytes, (byte != DELIMITER) = true := by
    intro byte member
    exact bne_iff_ne.mpr (inside byte member)
  have shape : (bytes ++ rest).span (· != DELIMITER) = (bytes, rest) := by
    rw [List.span_eq_takeWhile_dropWhile,
      List.takeWhile_append_of_pos kept, List.dropWhile_append_of_pos kept]
    cases rest with
    | nil => simp
    | cons first others => simp [before first (by simp)]
  simp only [readField, shape]

/-- The reader takes a byte of a field for no mark. -/
theorem next_of_text {first : UInt8} (text : first = DELIMITER ∨ 32 ≤ first)
    (rest : Bytes) :
    next (DELIMITER :: first :: rest) = .ok (readField (first :: rest)) := by
  have number : first.toNat = 0 ∨ 32 ≤ first.toNat := by
    rcases text with rfl | large
    · exact Or.inl rfl
    · exact Or.inr (UInt8.le_iff_toNat_le.mp large)
  have distinct : ∀ mark : UInt8, mark.toNat ≠ 0 → mark.toNat < 32 →
      first ≠ mark := by
    rintro mark positive small rfl
    omega
  simp only [next, if_true,
    if_neg (distinct TERMINATOR_CHUNKED (by decide) (by decide)),
    if_neg (distinct TERMINATOR_LWW (by decide) (by decide)),
    if_neg (distinct TERMINATOR_COUNTER (by decide) (by decide)),
    UInt8.le_iff_toNat_le, UInt8.lt_iff_toNat_lt, UInt8.reduceToNat]
  rw [if_neg (by omega), if_neg (by omega)]

/-- It takes small numbers for the length of a peer. -/
theorem next_of_length {first : UInt8} (positive : 1 ≤ first.toNat)
    (small : first.toNat < 17) (rest : Bytes) :
    next (DELIMITER :: first :: rest) =
      readFractionalIndex (first :: rest) := by
  have distinct : ∀ mark : UInt8, 17 ≤ mark.toNat → first ≠ mark := by
    rintro mark large rfl
    omega
  simp only [next, if_true,
    if_neg (distinct TERMINATOR_CHUNKED (by decide)),
    if_neg (distinct TERMINATOR_LWW (by decide)),
    if_neg (distinct TERMINATOR_COUNTER (by decide)),
    UInt8.le_iff_toNat_le, UInt8.lt_iff_toNat_lt, UInt8.reduceToNat]
  rw [if_pos ⟨positive, small⟩]

theorem next_of_unknown {mark : UInt8} (large : 17 ≤ mark.toNat)
    (small : mark.toNat < 29) (rest : Bytes) :
    next (DELIMITER :: mark :: rest) =
      .ok (some (.error (.delimiter mark)), mark :: rest) := by
  have distinct : ∀ other : UInt8, 29 ≤ other.toNat → mark ≠ other := by
    rintro other larger rfl
    omega
  simp only [next, if_true,
    if_neg (distinct TERMINATOR_CHUNKED (by decide)),
    if_neg (distinct TERMINATOR_LWW (by decide)),
    if_neg (distinct TERMINATOR_COUNTER (by decide)),
    UInt8.le_iff_toNat_le, UInt8.lt_iff_toNat_lt, UInt8.reduceToNat]
  rw [if_neg (by omega), if_pos (by omega)]

end PathReader

/-- The first byte of a field with what is behind it. -/
theorem Part.text_or_delimiter {bytes rest : Bytes}
    (first : ∀ byte ∈ bytes.head?, 32 ≤ byte)
    (before : ∀ byte ∈ rest.head?, byte = DELIMITER)
    {head : UInt8} {others : Bytes}
    (shape : bytes ++ rest = head :: others) :
    head = DELIMITER ∨ 32 ≤ head := by
  cases bytes with
  | nil =>
      rw [List.nil_append] at shape
      exact Or.inl (before head (by simp [shape]))
  | cons byte more =>
      cases shape
      exact Or.inr (first head (by simp))

namespace PathReader

/-- A part is consumed up to its end. -/
theorem next_part (part : Part) {rest : Bytes} (before : part.Before rest)
    (nonempty : part.bytes ++ rest ≠ []) :
    next (DELIMITER :: (part.bytes ++ rest)) =
      .ok (some (.ok part.segment), rest) := by
  cases part with
  | field bytes inside first =>
      obtain ⟨head, others, shape⟩ := List.exists_cons_of_ne_nil nonempty
      have text := Part.text_or_delimiter first before shape
      rw [shape, next_of_text text, ← shape]
      exact congrArg Except.ok (readField_before inside before)
  | index head tail =>
      obtain ⟨first, others, shape, positive, small⟩ := head.exists_bytes
      have found := FractionalIndex.fromBytes_of_noPeer before (head :: tail)
      have bytes : wideBytes (head :: tail) ++ rest =
          first :: (others ++ wideBytes tail ++ rest) := by
        rw [wideBytes_cons, shape]
        rfl
      rw [Part.bytes, bytes, next_of_length positive (by omega), ← bytes,
        readFractionalIndex, found, if_neg (by simp), ok_bind]
      dsimp only
      rw [sliceFrom_append_length]
      rfl

theorem next_counter {pid : Bytes} (whole : pid.length = 4) :
    next (DELIMITER :: TERMINATOR_COUNTER :: pid) =
      .ok (some (.ok (.tail (.counter ⟨UInt32.ofNat (ofBeBytes pid)⟩))),
        []) := by
  show Except.ok (readCounter pid) = _
  rw [readCounter, if_pos whole]

theorem next_brokenCounter {rest : Bytes} (broken : rest.length ≠ 4) :
    next (DELIMITER :: TERMINATOR_COUNTER :: rest) =
      .ok (some (.error .varInt), rest) := by
  show Except.ok (readCounter rest) = _
  rw [readCounter, if_neg broken]

theorem next_chunked {data : Bytes} (short : data.length ≤ 8)
    (rest : Bytes) :
    next (DELIMITER :: TERMINATOR_CHUNKED :: (announced data ++ rest)) =
      .ok (some (.ok (.tail
        (.chunked (UInt64.ofNat (ofBeBytes data))))), rest) := by
  have read : U64.readFrom (announced data ++ rest) = _ :=
    readFrom_announced (by decide) short rest
  show readChunked (announced data ++ rest) = _
  rw [readChunked, read, ok_bind]
  dsimp only
  rw [sliceFrom_announced]
  rfl

theorem next_brokenChunk {rest : Bytes} (unreadable : Unreadable 8 rest) :
    next (DELIMITER :: TERMINATOR_CHUNKED :: rest) =
      .ok (some (.error .varInt), rest) := by
  have read : U64.readFrom rest = .ok none :=
    readFrom_of_unreadable unreadable
  show readChunked rest = _
  rw [readChunked, read]
  rfl

/-- A chunk end which is cut off panics. -/
theorem next_cutChunk {rest : Bytes} (cut : Cut 8 rest) :
    next (DELIMITER :: TERMINATOR_CHUNKED :: rest) =
      .error .sliceIndex := by
  have panics : U64.readFrom rest = .error .sliceIndex :=
    readFrom_of_cut cut
  show readChunked rest = _
  rw [readChunked, panics]
  rfl

/-- A mark which is neither known nor cut off from what it announces. -/
theorem next_of_lonely_mark {mark : UInt8} (large : 5 ≤ mark)
    (small : mark < TERMINATOR_COUNTER) :
    ∃ error, next [DELIMITER, mark] = .ok (some (.error error), [mark]) := by
  rw [UInt8.le_iff_toNat_le] at large
  rw [UInt8.lt_iff_toNat_lt] at small
  have four : (5 : UInt8).toNat = 5 := rfl
  have last : TERMINATOR_COUNTER.toNat = 29 := rfl
  by_cases length : mark.toNat < 17
  · have noPeer : NoPeer [mark] := by
      left
      intro first rest same
      cases same
      omega
    have none : FractionalIndex.fromBytes [mark] = .ok none :=
      FractionalIndex.fromBytes_of_noPeer noPeer []
    refine ⟨.invalidIndex, ?_⟩
    rw [next_of_length (by omega) length, readFractionalIndex, none]
    rfl
  · exact ⟨_, next_of_unknown (by omega) (by omega) []⟩

/-- Only the end of the bytes ends the iterator. -/
theorem short_of_next {buf left : Bytes}
    (stepped : next buf = .ok (none, left)) : buf.length < 2 := by
  match buf, stepped with
  | [], _ => exact Nat.zero_lt_two
  | [_], _ => exact Nat.one_lt_two
  | first :: mark :: rest, stepped =>
      exfalso
      unfold next at stepped
      dsimp only at stepped
      split_ifs at stepped with delimiter chunked lww counter length unknown
      · unfold readChunked at stepped
        obtain ⟨read, -, stepped⟩ := bind_eq_ok_iff.mp stepped
        cases read with
        | none => cases stepped
        | some pair =>
            obtain ⟨behind, -, stepped⟩ := bind_eq_ok_iff.mp stepped
            cases stepped
      · cases stepped
      · unfold readCounter at stepped
        split_ifs at stepped
        · cases stepped
        · cases stepped
      · unfold readFractionalIndex at stepped
        obtain ⟨read, -, stepped⟩ := bind_eq_ok_iff.mp stepped
        cases read with
        | none => cases stepped
        | some pair =>
            obtain ⟨behind, -, stepped⟩ := bind_eq_ok_iff.mp stepped
            cases stepped
      · cases stepped
      · cases stepped
      · cases stepped

/-! ## All steps -/

/-- Every byte string is cut at its first delimiter. -/
theorem exists_before_delimiter (buf : Bytes) :
    ∃ bytes rest, buf = bytes ++ rest ∧
      (∀ byte ∈ bytes, byte ≠ DELIMITER) ∧
      ∀ byte ∈ rest.head?, byte = DELIMITER := by
  induction buf with
  | nil => exact ⟨[], [], rfl, by simp, by simp⟩
  | cons first others induction =>
      by_cases delimiter : first = DELIMITER
      · exact ⟨[], first :: others, rfl, by simp, by simp [delimiter]⟩
      · obtain ⟨bytes, rest, rfl, inside, before⟩ := induction
        refine ⟨first :: bytes, rest, rfl, ?_, before⟩
        exact List.forall_mem_cons.mpr ⟨delimiter, inside⟩

/-- What stands where a field may begin is a field. -/
theorem reads_of_text {first : UInt8} (text : first = DELIMITER ∨ 32 ≤ first)
    {rest left : Bytes} {item : Except PathError PathSegment}
    (read : readField (first :: rest) = (some item, left)) :
    Reads (DELIMITER :: first :: rest) item left := by
  obtain ⟨bytes, behind, shape, inside, before⟩ :=
    exists_before_delimiter (first :: rest)
  have large : ∀ byte ∈ bytes.head?, 32 ≤ byte := by
    intro byte head
    cases bytes with
    | nil => cases head
    | cons byte' more =>
        cases head
        cases shape
        exact text.resolve_left (inside first List.mem_cons_self)
  rw [shape, readField_before inside before] at read
  cases read
  rw [shape]
  exact Reads.part (.field bytes inside large) left before
    (by rw [Part.bytes, ← shape]; simp)

/-- A peer which is read starts an index or is left where it is. -/
theorem reads_of_length {first : UInt8} (positive : 1 ≤ first.toNat)
    (small : first.toNat < 17) {rest left : Bytes}
    {item : Except PathError PathSegment}
    (read : readFractionalIndex (first :: rest) = .ok (some item, left)) :
    Reads (DELIMITER :: first :: rest) item left := by
  have whole : ¬ Cut 4 (first :: rest) := by
    intro cut
    have torn : Torn (first :: rest) := Or.inl cut
    have panics : FractionalIndex.fromBytes (first :: rest) = _ :=
      FractionalIndex.fromBytes_of_torn torn []
    rw [readFractionalIndex, panics] at read
    cases read
  have unknown (error : PathError) :
      Reads (DELIMITER :: first :: rest) (.error error) (first :: rest) := by
    refine Reads.unknown error first rest ?_ ?_ whole
    · rintro rfl
      exact absurd positive (by decide)
    · rw [UInt8.lt_iff_toNat_lt]
      exact small.trans (by decide)
  obtain ⟨wides, behind, shape, stops⟩ := exists_wideBytes (first :: rest)
  rcases stops with noPeer | noSequence | torn
  · cases wides with
    | nil =>
        have none : FractionalIndex.fromBytes (first :: rest) = .ok none := by
          rw [shape, FractionalIndex.fromBytes_of_noPeer noPeer, if_pos rfl]
        rw [readFractionalIndex, none] at read
        cases read
        exact unknown _
    | cons head tail =>
        have found := FractionalIndex.fromBytes_of_noPeer noPeer
          (head :: tail)
        rw [if_neg (by simp)] at found
        rw [shape, readFractionalIndex, found, ok_bind] at read
        dsimp only at read
        rw [sliceFrom_append_length] at read
        cases read
        rw [shape]
        exact Reads.part (.index head tail) left noPeer
          (by rw [Part.bytes, ← shape]; simp)
  · have none : FractionalIndex.fromBytes (first :: rest) = .ok none := by
      rw [shape, FractionalIndex.fromBytes_of_noSequence noSequence]
    rw [readFractionalIndex, none] at read
    cases read
    exact unknown _
  · rw [readFractionalIndex, shape,
      FractionalIndex.fromBytes_of_torn torn] at read
    cases read

theorem reads_of_chunked {rest left : Bytes}
    {item : Except PathError PathSegment}
    (stepped : next (DELIMITER :: TERMINATOR_CHUNKED :: rest) =
      .ok (some item, left)) :
    Reads (DELIMITER :: TERMINATOR_CHUNKED :: rest) item left := by
  rcases announced_or_cut 8 rest with
    ⟨data, behind, short, rfl⟩ | unreadable | cut
  · rw [next_chunked short] at stepped
    cases stepped
    exact Reads.chunked data _ short
  · rw [next_brokenChunk unreadable] at stepped
    cases stepped
    exact Reads.brokenChunk _ unreadable
  · rw [next_cutChunk cut] at stepped
    cases stepped

theorem reads_of_counter {rest left : Bytes}
    {item : Except PathError PathSegment}
    (stepped : next (DELIMITER :: TERMINATOR_COUNTER :: rest) =
      .ok (some item, left)) :
    Reads (DELIMITER :: TERMINATOR_COUNTER :: rest) item left := by
  by_cases whole : rest.length = 4
  · rw [next_counter whole] at stepped
    cases stepped
    exact Reads.counter rest whole
  · rw [next_brokenCounter whole] at stepped
    cases stepped
    exact Reads.brokenCounter _ whole

/-- The step behind a delimiter, by the mark which follows it. -/
theorem reads_of_mark {mark : UInt8} {rest left : Bytes}
    {item : Except PathError PathSegment}
    (stepped : next (DELIMITER :: mark :: rest) = .ok (some item, left)) :
    Reads (DELIMITER :: mark :: rest) item left := by
  by_cases chunked : mark = TERMINATOR_CHUNKED
  · subst chunked
    exact reads_of_chunked stepped
  by_cases lww : mark = TERMINATOR_LWW
  · subst lww
    cases stepped
    exact Reads.lww rest
  by_cases counter : mark = TERMINATOR_COUNTER
  · subst counter
    exact reads_of_counter stepped
  have others : mark.toNat ≠ 31 ∧ mark.toNat ≠ 30 ∧ mark.toNat ≠ 29 := by
    refine ⟨?_, ?_, ?_⟩
    · exact fun same => chunked (UInt8.toNat_inj.mp same)
    · exact fun same => lww (UInt8.toNat_inj.mp same)
    · exact fun same => counter (UInt8.toNat_inj.mp same)
  by_cases text : mark = DELIMITER ∨ 32 ≤ mark
  · rw [next_of_text text, Except.ok.injEq] at stepped
    exact reads_of_text text stepped
  · rw [← UInt8.toNat_inj, UInt8.le_iff_toNat_le] at text
    have positive : mark.toNat ≠ 0 := fun zero => text (Or.inl zero)
    have small : mark.toNat < 32 :=
      Nat.lt_of_not_le fun large => text (Or.inr large)
    by_cases length : mark.toNat < 17
    · rw [next_of_length (by omega) length] at stepped
      exact reads_of_length (by omega) length stepped
    · rw [next_of_unknown (by omega) (by omega)] at stepped
      cases stepped
      refine Reads.unknown _ mark rest ?_ ?_ ?_
      · rintro rfl
        exact positive rfl
      · rw [UInt8.lt_iff_toNat_lt]
        show mark.toNat < 29
        omega
      · rintro ⟨first, others, same, small, -⟩
        cases same
        omega

/-- Everything which one step can do. -/
theorem reads_of_next {buf left : Bytes}
    {item : Except PathError PathSegment}
    (stepped : next buf = .ok (some item, left)) : Reads buf item left := by
  match buf, stepped with
  | [], stepped => cases stepped
  | [_], stepped => cases stepped
  | first :: mark :: rest, stepped =>
      by_cases delimiter : first = DELIMITER
      · subst delimiter
        exact reads_of_mark stepped
      · rw [next, if_neg delimiter] at stepped
        cases stepped
        exact Reads.misplaced first mark rest delimiter

end PathReader

/-! ## Coming to an end -/

/--
Byte strings of whole parts.  A terminator may be broken, and then what
follows it is laid out again.  An unknown mark is the last byte.
-/
inductive Laid : Bytes → Prop
  | short {bytes : Bytes} (short : bytes.length < 2) : Laid bytes
  | part (part : Part) {rest : Bytes} (before : part.Before rest)
      (laid : Laid rest) : Laid (DELIMITER :: (part.bytes ++ rest))
  | lww (rest : Bytes) : Laid (DELIMITER :: TERMINATOR_LWW :: rest)
  | counter {pid : Bytes} (whole : pid.length = 4) :
      Laid (DELIMITER :: TERMINATOR_COUNTER :: pid)
  | brokenCounter {rest : Bytes} (broken : rest.length ≠ 4)
      (laid : Laid rest) : Laid (DELIMITER :: TERMINATOR_COUNTER :: rest)
  | chunked {data rest : Bytes} (short : data.length ≤ 8)
      (laid : Laid rest) :
      Laid (DELIMITER :: TERMINATOR_CHUNKED :: (announced data ++ rest))
  | brokenChunk {rest : Bytes} (unreadable : Unreadable 8 rest)
      (short : rest.length < 2) :
      Laid (DELIMITER :: TERMINATOR_CHUNKED :: rest)
  | unknown {mark : UInt8} (large : 5 ≤ mark)
      (small : mark < TERMINATOR_COUNTER) : Laid [DELIMITER, mark]

/-- Two bytes or more begin with a delimiter. -/
theorem Laid.first {first second : UInt8} {rest : Bytes}
    (laid : Laid (first :: second :: rest)) : first = DELIMITER := by
  generalize whole : first :: second :: rest = bytes at laid
  cases laid with
  | short short =>
      rw [← whole, List.length_cons, List.length_cons] at short
      omega
  | part part before laid => exact (List.cons.inj whole).1
  | lww rest => exact (List.cons.inj whole).1
  | counter => exact (List.cons.inj whole).1
  | brokenCounter => exact (List.cons.inj whole).1
  | chunked => exact (List.cons.inj whole).1
  | brokenChunk => exact (List.cons.inj whole).1
  | unknown => exact (List.cons.inj whole).1

namespace PathReader

/-- What is left behind an item is laid out, hence the whole is. -/
theorem laid_of_reads {buf left : Bytes}
    {item : Except PathError PathSegment} (reads : Reads buf item left)
    (laid : Laid left) : Laid buf := by
  cases reads with
  | part part rest before nonempty => exact Laid.part part before laid
  | lww rest => exact Laid.lww rest
  | counter pid whole => exact Laid.counter whole
  | brokenCounter rest broken => exact Laid.brokenCounter broken laid
  | chunked data rest short => exact Laid.chunked short laid
  | brokenChunk rest unreadable =>
      refine Laid.brokenChunk unreadable ?_
      match left, laid, unreadable with
      | [], _, _ => exact Nat.zero_lt_two
      | [_], _, _ => exact Nat.one_lt_two
      | first :: second :: rest, laid, unreadable =>
          have large := unreadable first (second :: rest) rfl
          rw [laid.first] at large
          exact absurd large (by decide)
  | unknown error mark rest nonzero small whole =>
      cases rest with
      | nil =>
          refine Laid.unknown ?_ small
          rw [UInt8.le_iff_toNat_le]
          by_contra missing
          refine whole ⟨mark, [], rfl, ?_, ?_⟩
          · exact Nat.le_of_lt_succ (Nat.lt_of_not_le missing)
          · refine Nat.pos_of_ne_zero fun zero => nonzero ?_
            exact UInt8.toNat_inj.mp zero
      | cons second rest => exact absurd laid.first nonzero
  | misplaced first second rest nonzero => exact laid

/-- Bytes which the iterator comes to the end of are laid out. -/
theorem laid_of_items {rounds : Nat} {buf stop : Bytes}
    {yielded : List (Except PathError PathSegment)}
    (ended : items rounds buf = .ok (yielded, stop)) : Laid buf := by
  induction rounds generalizing buf yielded stop with
  | zero => cases ended
  | succ rounds induction =>
      rw [items, bind_eq_ok_iff] at ended
      obtain ⟨⟨item, left⟩, stepped, continued⟩ := ended
      cases item with
      | none => exact Laid.short (short_of_next stepped)
      | some item =>
          dsimp only at continued
          rw [bind_eq_ok_iff] at continued
          obtain ⟨⟨others, last⟩, ended, -⟩ := continued
          exact laid_of_reads (reads_of_next stepped) (induction ended)

/-- The iterator ends after no more items than there are bytes. -/
def Ends (buf : Bytes) : Prop :=
  ∃ yielded stop, items (buf.length + 1) buf = .ok (yielded, stop) ∧
    yielded.length ≤ buf.length

/-- The same with any larger number of rounds. -/
def EndsIn (buf : Bytes) : Prop :=
  ∃ yielded stop, yielded.length ≤ buf.length ∧
    ∀ rounds, buf.length < rounds → items rounds buf = .ok (yielded, stop)

theorem endsIn_of_short {buf : Bytes} (short : buf.length < 2) :
    EndsIn buf := by
  refine ⟨[], buf, Nat.zero_le _, fun rounds enough => ?_⟩
  obtain ⟨rounds, rfl⟩ := Nat.exists_eq_succ_of_ne_zero
    (Nat.ne_zero_of_lt enough)
  rw [Nat.succ_eq_add_one, items, next_of_short short]
  rfl

theorem endsIn_nil : EndsIn [] :=
  endsIn_of_short Nat.zero_lt_two

/-- One more step in front. -/
theorem EndsIn.step {buf left : Bytes} {item : Except PathError PathSegment}
    (ends : EndsIn left) (stepped : next buf = .ok (some item, left))
    (shorter : left.length < buf.length) : EndsIn buf := by
  obtain ⟨yielded, stop, few, ended⟩ := ends
  refine ⟨item :: yielded, stop, ?_, fun rounds enough => ?_⟩
  · rw [List.length_cons]
    omega
  · obtain ⟨rounds, rfl⟩ := Nat.exists_eq_succ_of_ne_zero
      (Nat.ne_zero_of_lt enough)
    rw [Nat.succ_eq_add_one, items_succ stepped, ended rounds (by omega),
      map_ok]

theorem endsIn_of_laid {buf : Bytes} (laid : Laid buf) : EndsIn buf := by
  induction laid with
  | short short => exact endsIn_of_short short
  | part part before laid ends =>
      rename_i rest
      by_cases empty : part.bytes ++ rest = []
      · rw [empty]
        exact endsIn_of_short Nat.one_lt_two
      · refine ends.step (next_part part before empty) ?_
        rw [List.length_cons, List.length_append]
        omega
  | lww rest =>
      have stepped : next (DELIMITER :: TERMINATOR_LWW :: rest) =
          .ok (some (.ok (.tail .lww)), []) :=
        rfl
      exact endsIn_nil.step stepped (Nat.zero_lt_succ _)
  | counter whole =>
      exact endsIn_nil.step (next_counter whole) (Nat.zero_lt_succ _)
  | brokenCounter broken laid ends =>
      refine ends.step (next_brokenCounter broken) ?_
      rw [List.length_cons, List.length_cons]
      omega
  | chunked short laid ends =>
      refine ends.step (next_chunked short _) ?_
      rw [List.length_cons, List.length_cons, List.length_append]
      omega
  | brokenChunk unreadable short =>
      refine (endsIn_of_short short).step (next_brokenChunk unreadable) ?_
      rw [List.length_cons, List.length_cons]
      omega
  | unknown large small =>
      rename_i mark
      obtain ⟨error, stepped⟩ := next_of_lonely_mark large small
      have last : [mark].length < 2 := Nat.one_lt_two
      exact (endsIn_of_short last).step stepped Nat.one_lt_two

/-- The iterator comes to an end exactly on whole parts. -/
theorem ends_iff_laid (buf : Bytes) : Ends buf ↔ Laid buf := by
  constructor
  · rintro ⟨yielded, stop, ended, -⟩
    exact laid_of_items ended
  · intro laid
    obtain ⟨yielded, stop, few, ended⟩ := endsIn_of_laid laid
    exact ⟨yielded, stop, ended _ (Nat.lt_succ_self _), few⟩

/-- A byte other than the delimiter is reported again and again. -/
theorem items_misplaced :
    (∀ rounds, items rounds [1, 1] = .error .unfinished) ∧
      ¬ Ends [1, 1] := by
  have stuck : ∀ rounds, items rounds [1, 1] = .error .unfinished := by
    intro rounds
    induction rounds with
    | zero => rfl
    | succ rounds induction =>
        rw [items_succ (show next [1, 1] =
          .ok (some (.error (.delimiter 1)), [1, 1]) from rfl), induction]
        rfl
  refine ⟨stuck, ?_⟩
  rintro ⟨yielded, stop, ended, -⟩
  rw [stuck] at ended
  cases ended

end PathReader

end Cdoc.Path
