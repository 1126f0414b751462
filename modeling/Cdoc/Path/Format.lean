import Cdoc.Path.Lseq

/-!
# Document paths

The model of `src/path/mod.rs`, `src/path/write.rs` and `src/path/read.rs`.
A path is a byte string: every element is preceded by the delimiter zero,
and the last one is a terminator, told apart by a byte which no element can
start with.

`PathWriter` is instantiated at a vector, whose writes cannot fail.
`PathReader.next` is one step of the iterator on the remaining bytes.
-/

namespace Cdoc.Path

open Cdoc.Foundation

/-- The byte in front of fields and of tails. -/
def DELIMITER : UInt8 := 0

/-- The byte which announces a counter of a peer. -/
def TERMINATOR_COUNTER : UInt8 := 0b11101

/-- The byte which ends the path of a value. -/
def TERMINATOR_LWW : UInt8 := 0b11110

/-- The byte which announces the end of a chunk. -/
def TERMINATOR_CHUNKED : UInt8 := 0b11111

/-- The errors of writing and of reading a path. -/
inductive PathError where
  | delimiter (byte : UInt8)
  | varInt
  | invalidField
  | invalidIndex
  | tooLong
deriving DecidableEq, Repr

/-- `str::as_bytes`. -/
def strBytes (text : String) : Bytes :=
  text.toByteArray.data.toList

/-! ## Path segments -/

/--
A field, by the bytes of its string.  The reader builds fields from bytes it
has not checked.
-/
structure Field where
  bytes : Bytes
deriving DecidableEq, Repr

namespace Field

/-- No byte belongs to the control characters. -/
def isValid (text : String) : Bool :=
  (strBytes text).all (fun byte => !(byte < 32))

/-- `Field::new`: a text which a path can hold. -/
def new (text : String) : Except PathError Field :=
  if isValid text then .ok ⟨strBytes text⟩ else .error .invalidField

end Field

/-- What may close a path. -/
inductive Terminator where
  | counter (pid : PID)
  | lww
  | chunked (endIndex : UInt64)
deriving DecidableEq, Repr

/-- What a reader finds in a path. -/
inductive PathSegment where
  | field (field : Field)
  | index (index : FractionalIndex)
  | tail (terminator : Terminator)
deriving DecidableEq, Repr

/-! ## Writing -/

/--
The bytes of a path so far, and how many of them are counted against its
limit.
-/
structure PathWriter where
  writer : Bytes
  written : Nat
deriving DecidableEq, Repr

namespace PathWriter

/-- `PathWriter::new`, behind bytes which are already written. -/
def new (writer : Bytes) (written : Nat) : PathWriter :=
  ⟨writer, written⟩

/-- The limit is `i16::MAX`. -/
def ensureCapacity (self : PathWriter) (additional : Nat) :
    Except PathError Unit :=
  if self.written + additional > 32767 then .error .tooLong else .ok ()

/-- `push_field`: the name is checked before the room for it. -/
def pushField (self : PathWriter) (field : String) :
    Except PathError PathWriter := do
  let f ← Field.new field
  let len := 1 + f.bytes.length
  self.ensureCapacity len
  return {
    writer := self.writer ++ DELIMITER :: f.bytes
    written := self.written + len }

/-- The delimiter is part of the check, but not of the count. -/
def pushIndex (self : PathWriter) (index : FractionalIndex) :
    Except PathError PathWriter := do
  let len := index.bytes.length
  self.ensureCapacity (1 + len)
  return {
    writer := self.writer ++ DELIMITER :: index.bytes
    written := self.written + len }

/-- `lww_chunked`: the only way to close a path which checks the room. -/
def lwwChunked (self : PathWriter) (endIndex : UInt64) :
    Except PathError Bytes := do
  let dataLen := VarInt.byteLength 8 endIndex.toNat
  self.ensureCapacity (2 + dataLen)
  return self.writer ++
    DELIMITER :: TERMINATOR_CHUNKED :: VarInt.U64.write endIndex

/-- `lww`: closes the path of a value, whatever room is left. -/
def lww (self : PathWriter) : Except PathError Bytes :=
  .ok (self.writer ++ [DELIMITER, TERMINATOR_LWW])

/-- `counter`: closes the path of a counter, whatever room is left. -/
def counter (self : PathWriter) (pid : PID) : Except PathError Bytes :=
  .ok (self.writer ++ DELIMITER :: TERMINATOR_COUNTER :: pid.asBytes)

end PathWriter

/-- What a caller appends to a path before closing it. -/
inductive PathElement where
  | field (name : String)
  | index (index : FractionalIndex)
deriving DecidableEq, Repr

namespace PathWriter

/-- An element is pushed by the method for its kind. -/
def push (self : PathWriter) : PathElement → Except PathError PathWriter
  | .field name => self.pushField name
  | .index index => self.pushIndex index

/-- Elements are pushed one after the other. -/
def pushAll (self : PathWriter) (elements : List PathElement) :
    Except PathError PathWriter :=
  elements.foldlM push self

/-- A path is closed by the method for its terminator. -/
def close (self : PathWriter) : Terminator → Except PathError Bytes
  | .counter pid => self.counter pid
  | .lww => self.lww
  | .chunked endIndex => self.lwwChunked endIndex

end PathWriter

/-- The bytes of a path which has not been closed. -/
def writeElements (elements : List PathElement) :
    Except PathError Bytes :=
  PathWriter.writer <$> (PathWriter.new [] 0).pushAll elements

/-- The bytes of a complete path. -/
def writePath (elements : List PathElement) (terminator : Terminator) :
    Except PathError Bytes := do
  let w ← (PathWriter.new [] 0).pushAll elements
  w.close terminator

/-! ## Reading -/

namespace PathReader

/-- What one step of the iterator yields, and the remaining bytes. -/
abbrev Step := Option (Except PathError PathSegment) × Bytes

/-- `read_field`: a name reaches up to the next delimiter. -/
def readField (buf : Bytes) : Step :=
  let (l, r) := buf.span (· != DELIMITER)
  (some (.ok (.field ⟨l⟩)), r)

/--
`read_chunked`: the index behind the terminator; a wrong one is not consumed.
-/
def readChunked (buf : Bytes) : Checked Step := do
  match ← VarInt.U64.readFrom buf with
  | none => return (some (.error .varInt), buf)
  | some (endIndex, read) =>
      let buf ← sliceFrom buf read
      return (some (.ok (.tail (.chunked (UInt64.ofNat endIndex)))), buf)

/-- The identifier is the whole rest of the path. -/
def readCounter (buf : Bytes) : Step :=
  if buf.length = 4 then
    (some (.ok (.tail (.counter ⟨UInt32.ofNat (ofBeBytes buf)⟩))), [])
  else
    (some (.error .varInt), buf)

/-- `read_fractional_index`: a wrong index is not consumed. -/
def readFractionalIndex (buf : Bytes) : Checked Step := do
  match ← FractionalIndex.fromBytes buf with
  | none => return (some (.error .invalidIndex), buf)
  | some (index, read) =>
      let buf ← sliceFrom buf read
      return (some (.ok (.index index)), buf)

/-- One `next` of the iterator. -/
def next (buf : Bytes) : Checked Step :=
  match buf with
  | delim :: tag :: rest =>
      if delim = DELIMITER then
        if tag = TERMINATOR_CHUNKED then
          readChunked rest
        else if tag = TERMINATOR_LWW then
          .ok (some (.ok (.tail .lww)), [])
        else if tag = TERMINATOR_COUNTER then
          .ok (readCounter rest)
        else if 1 ≤ tag ∧ tag < 17 then
          readFractionalIndex (tag :: rest)
        else if 17 ≤ tag ∧ tag < 32 then
          .ok (some (.error (.delimiter tag)), tag :: rest)
        else
          .ok (readField (tag :: rest))
      else
        .ok (some (.error (.delimiter delim)), delim :: tag :: rest)
  | _ => .ok (none, buf)

/--
The items of the iterator up to the first `None`, and the bytes it stops at.
A wrong delimiter is reported for ever, so the rounds may not suffice.
-/
def items : Nat → Bytes →
    Checked (List (Except PathError PathSegment) × Bytes)
  | 0, _ => .error .unfinished
  | rounds + 1, buf => do
      match ← next buf with
      | (none, rest) => return ([], rest)
      | (some item, rest) =>
          let (others, stop) ← items rounds rest
          return (item :: others, stop)

end PathReader

end Cdoc.Path
