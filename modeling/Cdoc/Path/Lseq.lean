import Cdoc.VarInt

/-!
# Fractional indices

The model of `src/path/lseq.rs` and `src/pid.rs`.  A fractional index is a
byte string made of segments, each a peer identifier followed by a sequence
number, both as variable integers.

`writeFractionalIndex` walks the segments of two neighbours in two loops, as
the source does: the first runs while both neighbours have a segment, the
second until a new segment has been written.  Sequence numbers are 32-bit
and their increment panics at the largest one.  The loops carry a number of
rounds; `Panic.unfinished` reports that it did not suffice.
-/

namespace Cdoc.Path

open Cdoc.Foundation

/-! ## Peers and segments -/

/-- A peer identifier.  `PID.new` refuses zero, other constructors do not. -/
structure PID where
  val : UInt32
deriving DecidableEq, Repr

namespace PID

/-- `PID::new`: the identifier of a peer is not zero. -/
def new (pid : UInt32) : Option PID :=
  if pid = 0 then none else some ⟨pid⟩

/-- The four bytes of the identifier as it lies in memory. -/
def asBytes (pid : PID) : Bytes :=
  beBytes 4 pid.val.toNat

end PID

/-- One step of a fractional index: a peer and its sequence number. -/
structure Segment where
  pid : PID
  seq : UInt32
deriving DecidableEq, Repr

namespace Segment

/-- The derived order: by peer, then by sequence number. -/
def key (segment : Segment) : Nat ×ₗ Nat :=
  toLex (segment.pid.val.toNat, segment.seq.toNat)

theorem key_injective : Function.Injective key := by
  rintro ⟨⟨leftPid⟩, leftSeq⟩ ⟨⟨rightPid⟩, rightSeq⟩ equal
  have parts := Prod.ext_iff.mp (toLex.injective equal)
  simp only [UInt32.toNat_inj] at parts
  rw [parts.1, parts.2]

instance : LinearOrder Segment :=
  LinearOrder.lift' key key_injective

theorem lt_iff {left right : Segment} :
    left < right ↔
      left.pid.val.toNat < right.pid.val.toNat ∨
        left.pid = right.pid ∧ left.seq.toNat < right.seq.toNat := by
  change key left < key right ↔ _
  rw [Prod.Lex.lt_iff]
  simp only [key, ofLex_toLex, UInt32.toNat_inj]
  rw [← PID.mk.injEq]

/-- The largest segment, used where the upper neighbour has none left. -/
def max : Segment :=
  ⟨⟨0xffffffff⟩, 0xffffffff⟩

/-- `Segment::new(l.pid, l.seq + 1)`. -/
def successor (segment : Segment) : Checked Segment :=
  if segment.seq = 0xffffffff then
    .error .overflow
  else
    .ok ⟨segment.pid, segment.seq + 1⟩

/-- `Segment::write`: the peer in the byte order of keys, then its number. -/
def write (segment : Segment) : Bytes :=
  VarInt.BE32.write segment.pid.val ++ VarInt.U32.write segment.seq

/-- The next segment of a byte string and the bytes after it. -/
def parse (bytes : Bytes) : Checked (Option (Segment × Bytes)) := do
  match ← VarInt.BE32.readFrom bytes with
  | none => return none
  | some (pid, used) =>
      match PID.new (UInt32.ofNat pid) with
      | none => return none
      | some pid =>
          let bytes ← sliceFrom bytes used
          match ← VarInt.U32.readFrom bytes with
          | none => return none
          | some (seq, used) =>
              let bytes ← sliceFrom bytes used
              return some (⟨pid, UInt32.ofNat seq⟩, bytes)

end Segment

/-! ## The segment iterator -/

namespace Segments

/-- One `next` of the iterator over the remaining bytes. -/
def next (bytes : Bytes) : Checked (Option Segment × Bytes) := do
  match ← Segment.parse bytes with
  | none => return (none, bytes)
  | some (segment, rest) => return (some segment, rest)

/-- The segments which the iterator yields, and the bytes it stops at. -/
def collect : Nat → Bytes → Checked (List Segment × Bytes)
  | 0, _ => .error .unfinished
  | rounds + 1, bytes => do
      match ← next bytes with
      | (none, rest) => return ([], rest)
      | (some segment, rest) =>
          let (segments, stop) ← collect rounds rest
          return (segment :: segments, stop)

end Segments

/-- A byte string held as a fractional index. -/
structure FractionalIndex where
  bytes : Bytes
deriving DecidableEq, Repr

namespace FractionalIndex

/-- The segments of an index, and the bytes the iterator stops at. -/
def parts (bytes : Bytes) : Checked (List Segment × Bytes) :=
  Segments.collect (bytes.length + 1) bytes

/-- `FractionalIndex::is_valid`: the bytes are segments to the end. -/
def isValid (bytes : Bytes) : Checked Bool := do
  let (_, stop) ← parts bytes
  return stop.isEmpty

/-- `FractionalIndex::new`: the bytes are taken over once they are checked. -/
def new (bytes : Bytes) : Checked (Option FractionalIndex) := do
  if ← isValid bytes then return some ⟨bytes⟩ else return none

/-- The segments of an index. -/
def segments (index : FractionalIndex) : Checked (List Segment) :=
  Prod.fst <$> parts index.bytes

/-- The loop of `from_bytes`: the number of bytes which belong to it. -/
def fromBytesLoop : Nat → Bytes → Nat → Checked (Option Nat)
  | 0, _, _ => .error .unfinished
  | rounds + 1, bytes, read =>
      if bytes.isEmpty then
        .ok (some read)
      else do
        match ← VarInt.BE32.readFrom bytes with
        | none => return some read
        | some (pid, used) =>
            if (PID.new (UInt32.ofNat pid)).isNone then
              return some read
            else
              let bytes ← sliceFrom bytes used
              match ← VarInt.U32.readFrom bytes with
              | none => return none
              | some (_, usedSeq) =>
                  let bytes ← sliceFrom bytes usedSeq
                  fromBytesLoop rounds bytes (read + used + usedSeq)

/-- The longest index at the start of a byte string, with its length. -/
def fromBytes (bytes : Bytes) :
    Checked (Option (FractionalIndex × Nat)) := do
  match ← fromBytesLoop (bytes.length + 1) bytes 0 with
  | none => return none
  | some 0 => return none
  | some read =>
      let index ← slice bytes 0 read
      return some (⟨index⟩, read)

end FractionalIndex

/-! ## Generating an index between two others -/

/-- The local variables of `write_fractional_index`. -/
structure Walk where
  written : Bytes
  lo : Bytes
  hi : Bytes
  lower : Option Segment
  higher : Option Segment
  diffed : Bool

namespace Walk

/-- `lower = lo.next(); higher = hi.next()`. -/
def advance (walk : Walk) : Checked Walk := do
  let (lower, lo) ← Segments.next walk.lo
  let (higher, hi) ← Segments.next walk.hi
  return { walk with lower, lo, higher, hi }

/-- The first loop: both neighbours still have a segment. -/
def commonLoop (pid : PID) : Nat → Walk → Checked Walk
  | 0, _ => .error .unfinished
  | rounds + 1, walk =>
      match walk.lower, walk.higher with
      | some l, some h => do
          let n ← l.successor
          if n < h then
            if n.pid ≠ pid then
              -- another peer's segment: copy it and descend
              let walk ← advance { walk with
                written := walk.written ++ l.write }
              commonLoop pid rounds walk
            else
              return { walk with
                written := walk.written ++ n.write, diffed := true }
          else
            let walk ← advance { walk with
              written := walk.written ++ l.write }
            commonLoop pid rounds walk
      | _, _ => .ok walk

/-- The second loop: a missing neighbour is replaced by a default. -/
def tailLoop (pid : PID) : Nat → Walk → Checked Walk
  | 0, _ => .error .unfinished
  | rounds + 1, walk =>
      if walk.diffed then
        .ok walk
      else do
        let l := walk.lower.getD ⟨pid, 1⟩
        let h := walk.higher.getD Segment.max
        let n ← l.successor
        let walk ← advance
          (if n < h then
            { walk with
              written := walk.written ++ n.write, diffed := true }
          else
            { walk with written := walk.written ++ l.write })
        tailLoop pid rounds walk

end Walk

/-- The bytes which `write_fractional_index` appends to its writer. -/
def writeFractionalIndex (lo hi : Bytes) (pid : PID) :
    Checked Bytes := do
  let rounds := lo.length + hi.length + 3
  let walk ← Walk.advance ⟨[], lo, hi, none, none, false⟩
  let walk ← Walk.commonLoop pid rounds walk
  let walk ← Walk.tailLoop pid rounds walk
  return walk.written

/-- A new index between two neighbours, either of which may be absent. -/
def FractionalIndex.between (prev next : Option FractionalIndex)
    (pid : PID) : Checked Bytes :=
  writeFractionalIndex
    ((prev.map FractionalIndex.bytes).getD [])
    ((next.map FractionalIndex.bytes).getD [])
    pid

end Cdoc.Path
