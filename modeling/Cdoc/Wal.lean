import Cdoc.Foundation.Checksum
import Cdoc.Foundation.File
import Cdoc.Hlc

/-!
# The write-ahead log

The model of `src/wal/mod.rs`.  A record is framed by the lengths of its key
and value; the sign bit of the key length marks the record which commits a
transaction and carries its timestamp.  The checksum of a record starts from
that of the previous record of its transaction.

`replay` reads a whole file.  Each of its reads either succeeds or ends the
loop.  The bytes of a value whose key is empty are not read: they are those
of a fresh allocation, given by `memory` for each record.
-/

namespace Cdoc

open Cdoc.Foundation

/-- A record of the log; it commits when it has a timestamp. -/
structure WalRecord where
  key : Bytes
  value : Bytes
  timestamp : Option Timestamp
deriving DecidableEq, Repr

/--
The open log: where its last commit record ends, and the checksum which the
next record continues.
-/
structure WriteAheadLog where
  file : File
  lastCommitPos : Nat
  rollingCrc : UInt32
deriving DecidableEq, Repr

namespace WriteAheadLog

/-- The bit of the length of a key which marks a commit. -/
def COMMIT_BIT : UInt16 := (1 : UInt16) <<< 15

/-- A new, empty log; an existing file is truncated. -/
def create : WriteAheadLog :=
  ⟨File.empty, 0, 0⟩

/-- The log on a device with the given fault. -/
def withFault (self : WriteAheadLog) (fault : Option Nat) :
    WriteAheadLog :=
  { self with file := { self.file with fault } }

/-! ## Writing -/

/-- A computation on the file of the log. -/
def onFile {α : Type} (action : Io File α) : Io WriteAheadLog α :=
  fun self =>
    match action self.file with
    | .ok value file => .ok value { self with file }
    | .error failure file => .error failure { self with file }

/--
`write_record`: the parts of a record are written one by one, and the state
changes after the last of them.
-/
def writeRecord (checksum : Checksum) (key value : Bytes)
    (commit : Option Timestamp) : Io WriteAheadLog Unit := do
  let keyLen := UInt16.ofNat key.length
  let keyLen := if commit.isSome then keyLen ||| COMMIT_BIT else keyLen
  onFile (File.writeAll (leBytes 2 keyLen.toNat))
  onFile (File.writeAll
    (leBytes 2 (UInt16.ofNat value.length).toNat))
  let hasher := Hasher.newWithInitial (← get).rollingCrc
  onFile (File.writeAll key)
  let hasher := hasher.update key
  onFile (File.writeAll value)
  let hasher := hasher.update value
  let hasher ← match commit with
    | some ts => do
        onFile (File.writeAll ts.asBytes)
        pure (hasher.update ts.asBytes)
    | none => pure hasher
  modify ({ · with rollingCrc := hasher.finalize checksum })
  onFile (File.writeAll (leBytes 4 (← get).rollingCrc.toNat))
  if commit.isSome then
    let position ← onFile File.streamPosition
    modify ({ · with lastCommitPos := position, rollingCrc := 0 })

/-- `write_commit`: a record without key and value, but with a timestamp. -/
def writeCommit (checksum : Checksum) (ts : Timestamp) :
    Io WriteAheadLog Unit :=
  writeRecord checksum [] [] (some ts)

/-- `truncate_to_last_commit`: what stands behind the last commit is cut off. -/
def truncateToLastCommit : Io WriteAheadLog Unit := do
  onFile (File.setLen (← get).lastCommitPos)
  onFile (File.seek (← get).lastCommitPos)
  modify ({ · with rollingCrc := 0 })

/-- `reset`: the log is empty again. -/
def reset : Io WriteAheadLog Unit := do
  onFile (File.setLen 0)
  onFile (File.seek 0)
  modify ({ · with lastCommitPos := 0, rollingCrc := 0 })

/-! ## Replay -/

/-- The key and the value; both are skipped when the key is empty. -/
def readBody (memory : Nat → UInt8) (keyLen valueLen : Nat)
    (rest : Bytes) : Option ((Bytes × Bytes) × Bytes) :=
  if keyLen ≠ 0 then do
    let (key, rest) ← readExact keyLen rest
    let (value, rest) ← readExact valueLen rest
    return ((key, value), rest)
  else
    return (([], (List.range valueLen).map memory), rest)

/-- The timestamp of a record, which only a commit has. -/
def readTimestamp (isCommit : Bool) (rest : Bytes) :
    Option (Option Timestamp × Bytes) :=
  if isCommit then do
    let (buf, rest) ← readExact 8 rest
    return (some (Timestamp.new (UInt64.ofNat (ofBeBytes buf))), rest)
  else
    return (none, rest)

/--
One record from the remaining bytes, with its checksum and the bytes behind
it; nothing where `replay` leaves its loop.
-/
def nextRecord (checksum : Checksum) (memory : Nat → UInt8)
    (rollingCrc : UInt32) (rest : Bytes) :
    Option ((WalRecord × UInt32) × Bytes) := do
  let (buf, rest) ← readExact 2 rest
  let keyLen := UInt16.ofNat (ofLeBytes buf)
  let isCommit := decide (keyLen &&& COMMIT_BIT ≠ 0)
  let keyLen := (keyLen &&& ~~~COMMIT_BIT).toNat
  let (buf, rest) ← readExact 2 rest
  let valueLen := ofLeBytes buf
  let ((key, value), rest) ← readBody memory keyLen valueLen rest
  let (timestamp, rest) ← readTimestamp isCommit rest
  let (buf, rest) ← readExact 4 rest
  let verifyCrc := UInt32.ofNat (ofLeBytes buf)
  let hasher :=
    ((Hasher.newWithInitial rollingCrc).update key).update value
  let hasher := match timestamp with
    | some ts => hasher.update ts.asBytes
    | none => hasher
  let crc := hasher.finalize checksum
  if crc ≠ verifyCrc then
    none
  else
    return ((⟨key, value, timestamp⟩, crc), rest)

/-- The local variables of `replay`. -/
structure Replay where
  rest : Bytes
  records : List WalRecord
  lastCommitPos : Nat
  rollingCrc : UInt32
deriving DecidableEq, Repr

/-- The variables after a record has been accepted. -/
def Replay.push (self : Replay) (record : WalRecord) (crc : UInt32)
    (rest : Bytes) : Replay :=
  let records := self.records ++ [record]
  if record.timestamp.isSome then
    { rest, records, lastCommitPos := records.length, rollingCrc := 0 }
  else
    { self with rest, records, rollingCrc := crc }

/-- The loop of `replay`, which ends at the first record that does not read. -/
def replayLoop (checksum : Checksum) (memory : Nat → Nat → UInt8) :
    Nat → Replay → Checked Replay
  | 0, _ => .error .unfinished
  | rounds + 1, state =>
      if state.rest.isEmpty then
        .ok state
      else
        match nextRecord checksum (memory state.records.length)
            state.rollingCrc state.rest with
        | none => .ok state
        | some ((record, crc), rest) =>
            replayLoop checksum memory rounds
              (state.push record crc rest)

/-- The committed records of a log with the given contents. -/
def replay (checksum : Checksum) (memory : Nat → Nat → UInt8)
    (contents : Bytes) : Checked (List WalRecord) := do
  let state ← replayLoop checksum memory (contents.length + 1)
    ⟨contents, [], 0, 0⟩
  return state.records.take state.lastCommitPos

end WriteAheadLog

end Cdoc
