import Cdoc.Foundation.Callback
import Cdoc.Path.RoundTrip
import Cdoc.Query.Parse
import Cdoc.Transaction

/-!
# Mutations

The model of `src/mutation.rs` and of `ReadWriteTransaction::execute`.  A
mutation is a tree of assignments and deletions below the segments of a
document.  `for_each` walks over it with one path writer, whose buffer is
cut back between siblings, and hands every leaf to a callback.

Values are encoded by another crate: their type, the errors of the encoder
and the encoder itself are parameters.  The callback has a state of its own.
-/

namespace Cdoc

open Cdoc.Foundation
open Cdoc.Path

/-- The errors of the crate; `ε` are those of the encoder of values. -/
inductive Error (ε : Type) where
  | io (error : IoError)
  | path (error : PathError)
  | zeroCopy
  | cbor (error : ε)
  | query (error : QueryError)
  | corruption (message : String)
deriving DecidableEq, Repr

namespace Segment

/-- `AsRef<[u8]>`. -/
def bytes : Segment → Bytes
  | .field name => strBytes name
  | .fractionalIndex bytes => bytes

/--
`Segment::write`: an index is checked before it is pushed, a field while it
is.
-/
def write (self : Segment) (w : PathWriter) :
    Checked (Except PathError PathWriter) :=
  match self with
  | .field name => .ok (w.pushField name)
  | .fractionalIndex bytes => do
      match ← FractionalIndex.new bytes with
      | none => return .error .invalidIndex
      | some index => return w.pushIndex index

/-- Segments which are written one by one. -/
def writeAll : List Segment → PathWriter →
    Checked (Except PathError PathWriter)
  | [], w => .ok (.ok w)
  | segment :: segments, w => do
      match ← segment.write w with
      | .error failure => return .error failure
      | .ok w => writeAll segments w

end Segment

/-- An operation on a segment. -/
inductive Op (Value : Type) where
  | assign (value : Value)
  | delete
deriving DecidableEq, Repr

/--
A tree of changes: an operation at a segment, changes below a segment, or
several changes at one place.
-/
inductive Mutation (Value : Type) where
  | apply (segment : Segment) (op : Op Value)
  | nested (segment : Segment) (mutations : List (Mutation Value))
  | compose (mutations : List (Mutation Value))

/-- `inner_mut().truncate(len)`. -/
def Path.PathWriter.truncate (self : PathWriter) (len : Nat) :
    PathWriter :=
  { self with writer := self.writer.take len }

namespace Mutation

section Walk

variable {Value ε σ : Type}

/-- `?` on the result of a path function. -/
def orPath {α : Type} (result : Checked (Except PathError α)) :
    Descent (Error ε) σ α :=
  match result with
  | .error panic => throw (.panic panic)
  | .ok (.error failure) => throw (.error (.path failure))
  | .ok (.ok value) => pure value

/-- `?` on the result of the encoder. -/
def orCbor {α : Type} (result : Except ε α) : Descent (Error ε) σ α :=
  match result with
  | .error failure => throw (.error (.cbor failure))
  | .ok value => pure value

variable (intoWriter : Value → Except ε Bytes)
variable (f : Bytes → Bytes → Descent (Error ε) σ Unit)

mutual

/-- The writer which is passed on is the one the source mutates. -/
def forEachInternal : Mutation Value → PathWriter →
    Descent (Error ε) σ PathWriter
  | .apply segment .delete, w => do
      let w ← orPath (segment.write w)
      f (← orPath (.ok w.lww)) []
      return w
  | .apply segment (.assign value), w => do
      let w ← orPath (segment.write w)
      let buf ← orCbor (intoWriter value)
      f (← orPath (.ok w.lww)) buf
      return w
  | .nested segment mutations, w => do
      let w ← orPath (segment.write w)
      forEachAll mutations w.writer.length w
  | .compose mutations, w =>
      forEachAll mutations w.writer.length w

/-- The loops over the children. -/
def forEachAll : List (Mutation Value) → (trunc : Nat) → PathWriter →
    Descent (Error ε) σ PathWriter
  | [], _, w => return w
  | mutation :: mutations, trunc, w => do
      let w ← forEachInternal mutation w
      forEachAll mutations trunc (w.truncate trunc)

end

/-- `Mutation::for_each`: the walk starts from an empty path. -/
def forEach (self : Mutation Value) : Descent (Error ε) σ Unit := do
  let _ ← forEachInternal intoWriter f self (PathWriter.new [] 0)
  return

end Walk

end Mutation

namespace ReadWriteTransaction

/-- The closure of `execute`, on the log which the lock guards. -/
def inserting {ε : Type} (checksum : Checksum) (key value : Bytes) :
    Descent (Error ε) (ReadWriteTransaction × WriteAheadLog) Unit :=
  fun (tx, wal) =>
    match tx.insert checksum key value wal with
    | .ok (.ok tx) wal => .ok () (tx, wal)
    | .ok (.error panic) wal => .error (.panic panic) (tx, wal)
    | .error failure wal => .error (.error (.io failure)) (tx, wal)

/-- `ReadWriteTransaction::execute`: every call of the walk is an insertion. -/
def execute {Value ε : Type} (checksum : Checksum)
    (intoWriter : Value → Except ε Bytes) (mutation : Mutation Value) :
    Descent (Error ε) (ReadWriteTransaction × WriteAheadLog) Unit :=
  mutation.forEach intoWriter (inserting checksum)

end ReadWriteTransaction

end Cdoc
