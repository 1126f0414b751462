import Cdoc.Foundation.Checksum
import Cdoc.Foundation.Checked
import Cdoc.Hlc

/-!
# Writing tables

The model of `src/sst/mod.rs` and `src/sst/write.rs`.  Entries come in key
order and are collected in blocks.  An entry shares a prefix with the one
before it, except every sixteenth of a block.  Behind the blocks come the
block index, the bloom filter and a footer of fixed size.

The writer is instantiated at a vector, which panics when it would exceed
the largest signed size.
-/

namespace Cdoc.Sst

open Cdoc.Foundation

/-- The size from which on a block is full. -/
def BLOCK_SIZE : Nat := 64 * 1024

/-- How often a key is stored as a whole. -/
def PREFIX_RESET_INTERVAL : Nat := 16

/-- The number of bits which a key sets in the filter. -/
def BLOOM_HASH_COUNT : Nat := 7

/-- The size of the footer at the end of a file. -/
def FOOTER_SIZE : Nat := 48

/-! ## The footer -/

/-- Where the parts of a file are, and what they cover. -/
structure SSTableFooter where
  indexOffset : UInt64
  bloomOffset : UInt64
  minTimestamp : Timestamp
  maxTimestamp : Timestamp
  entryCount : UInt64
  version : UInt32
  checksum : UInt32
deriving DecidableEq, Repr

namespace SSTableFooter

/-- The footer in the order of its fields, little-endian. -/
def asBytes (footer : SSTableFooter) : Bytes :=
  leBytes 8 footer.indexOffset.toNat ++
    leBytes 8 footer.bloomOffset.toNat ++
    footer.minTimestamp.asBytes ++
    footer.maxTimestamp.asBytes ++
    leBytes 8 footer.entryCount.toNat ++
    leBytes 4 footer.version.toNat ++
    leBytes 4 footer.checksum.toNat

/-- `read_from_bytes` on the forty-eight bytes of a footer. -/
def readFromBytes (bytes : Bytes) : SSTableFooter where
  indexOffset := UInt64.ofNat (ofLeBytes (bytes.take 8))
  bloomOffset := UInt64.ofNat (ofLeBytes ((bytes.drop 8).take 8))
  minTimestamp := ⟨UInt64.ofNat (ofBeBytes ((bytes.drop 16).take 8))⟩
  maxTimestamp := ⟨UInt64.ofNat (ofBeBytes ((bytes.drop 24).take 8))⟩
  entryCount := UInt64.ofNat (ofLeBytes ((bytes.drop 32).take 8))
  version := UInt32.ofNat (ofLeBytes ((bytes.drop 40).take 4))
  checksum := UInt32.ofNat (ofLeBytes ((bytes.drop 44).take 4))

end SSTableFooter

/-! ## The bloom filter -/

/-- `bloom_hash`: both checksums of the key, combined for each bit. -/
def bloomHash (checksum : Checksum) (key : Bytes) (i : Nat) : UInt64 :=
  let h1 := ((Hasher.new.update key).finalize checksum).toUInt64
  let h2 := (((Hasher.newWithInitial 0x9e3779b9).update key).finalize
    checksum).toUInt64
  h1 + UInt64.ofNat i * h2

/-- The mask of a bit inside its byte. -/
def bitMask (bitPos : Nat) : UInt8 :=
  1 <<< UInt8.ofNat (bitPos % 8)

/-- `bloom[bit_pos / 8] |= 1 << (bit_pos % 8)`. -/
def setBit (bloom : Bytes) (bitPos : Nat) : Bytes :=
  bloom.modify (bitPos / 8) (· ||| bitMask bitPos)

/-- The filter of the given keys. -/
def buildBloom (checksum : Checksum) (keys : List Bytes) : Bytes :=
  let numKeys := keys.length
  let filterBits := if numKeys = 0 then 8 else numKeys * 10
  let filterBytes := (filterBits + 7) / 8
  keys.foldl
    (fun bloom key =>
      (List.range BLOOM_HASH_COUNT).foldl
        (fun bloom i =>
          let h := bloomHash checksum key i
          setBit bloom (h.toNat % (filterBytes * 8)))
        bloom)
    (List.replicate filterBytes 0)

/-! ## The writer -/

/-- Where a block starts, and its first key. -/
structure BlockIndexEntry where
  firstKey : Bytes
  offset : Nat
  minTs : Timestamp
  maxTs : Timestamp

/--
A file which is being written: the block which is not full yet, and what the
index, the filter and the footer will need.
-/
structure SSTableWriter where
  writer : Bytes
  blockBuf : Bytes
  prevKey : Bytes
  entriesInBlock : Nat
  bytesWritten : Nat
  index : List BlockIndexEntry
  allKeys : List Bytes
  fileHasher : Hasher
  minTs : Timestamp
  maxTs : Timestamp

/-- Length of the common prefix between two byte strings. -/
def commonPrefixLen : Bytes → Bytes → Nat
  | left :: lefts, right :: rights =>
      if left = right then commonPrefixLen lefts rights + 1 else 0
  | _, _ => 0

/-- An entry as it stands in a block. -/
def entryBytes (shared : UInt16) (suffix value : Bytes) : Bytes :=
  leBytes 2 shared.toNat ++
    (leBytes 2 (UInt16.ofNat suffix.length).toNat ++
      (leBytes 2 (UInt16.ofNat value.length).toNat ++
        (suffix ++ value)))

namespace SSTableWriter

/-- `SSTableWriter::new`. -/
def new (minTs maxTs : Timestamp) : SSTableWriter where
  writer := []
  blockBuf := []
  prevKey := []
  entriesInBlock := 0
  bytesWritten := 0
  index := []
  allKeys := []
  fileHasher := Hasher.new
  minTs := minTs
  maxTs := maxTs

/-- Bytes go to the file, to its checksum and to its length. -/
def emit (self : SSTableWriter) (data : Bytes) :
    Checked SSTableWriter := do
  let writer ← extendVec self.writer data
  return { self with
    writer
    fileHasher := self.fileHasher.update data
    bytesWritten := self.bytesWritten + data.length }

/-- `finish_block`: the block goes to the file with its checksum behind it. -/
def finishBlock (checksum : Checksum) (self : SSTableWriter) :
    Checked SSTableWriter :=
  if self.blockBuf.isEmpty then
    .ok self
  else do
    let blockCrc := (Hasher.new.update self.blockBuf).finalize checksum
    let blockBuf := self.blockBuf ++ leBytes 4 blockCrc.toNat
    let self ← self.emit blockBuf
    return { self with
      blockBuf := []
      prevKey := []
      entriesInBlock := 0 }

/-- Starts a new block when the current one exceeds the target size. -/
def finishFullBlock (checksum : Checksum) (self : SSTableWriter) :
    Checked SSTableWriter :=
  if !self.blockBuf.isEmpty && decide (BLOCK_SIZE ≤ self.blockBuf.length)
  then self.finishBlock checksum
  else .ok self

/-- The first entry of a new block is recorded in the index. -/
def recordFirst (self : SSTableWriter) (key : Bytes) : SSTableWriter :=
  if self.entriesInBlock = 0 then
    { self with
      index := self.index ++
        [⟨key, self.bytesWritten, self.minTs, self.maxTs⟩]
      prevKey := [] }
  else
    self

/--
`SSTableWriter::add`: key and value go to the block, the key without what it
shares with the one before.
-/
def add (checksum : Checksum) (self : SSTableWriter)
    (key value : Bytes) : Checked SSTableWriter := do
  let self ← self.finishFullBlock checksum
  let self := self.recordFirst key
  let shared :=
    if self.entriesInBlock % PREFIX_RESET_INTERVAL = 0 then
      0
    else
      UInt16.ofNat (commonPrefixLen self.prevKey key)
  let suffix ← sliceFrom key shared.toNat
  return { self with
    blockBuf := self.blockBuf ++ entryBytes shared suffix value
    prevKey := key
    entriesInBlock := self.entriesInBlock + 1
    allKeys := self.allKeys ++ [key] }

/-- One entry of the block index. -/
def indexEntryBytes (entry : BlockIndexEntry) : Bytes :=
  leBytes 2 (UInt16.ofNat entry.firstKey.length).toNat ++
    (entry.firstKey ++ (entry.minTs.asBytes ++
      (entry.maxTs.asBytes ++ leBytes 8 entry.offset)))

/--
`SSTableWriter::finish`: the last block, the index, the filter and the footer.
-/
def finish (checksum : Checksum) (self : SSTableWriter) :
    Checked Bytes := do
  let self ← self.finishBlock checksum
  let indexOffset := self.bytesWritten
  let self ← self.emit (self.index.flatMap indexEntryBytes)
  let bloomOffset := self.bytesWritten
  let numKeys := self.allKeys.length
  let bloom := buildBloom checksum self.allKeys
  let self ← self.emit (leBytes 4 BLOOM_HASH_COUNT)
  let self ← self.emit bloom
  let fileCrc := self.fileHasher.finalize checksum
  let footer : SSTableFooter := {
    indexOffset := UInt64.ofNat indexOffset
    bloomOffset := UInt64.ofNat bloomOffset
    minTimestamp := self.minTs
    maxTimestamp := self.maxTs
    entryCount := UInt64.ofNat numKeys
    version := 1
    checksum := fileCrc }
  extendVec self.writer footer.asBytes

end SSTableWriter

/-- `SSTableWriter::new`, `add` for every entry, and `finish`. -/
def writeTable (checksum : Checksum) (minTs maxTs : Timestamp)
    (entries : List (Bytes × Bytes)) : Checked Bytes := do
  let writer ← entries.foldlM
    (fun writer entry => writer.add checksum entry.1 entry.2)
    (SSTableWriter.new minTs maxTs)
  writer.finish checksum

end Cdoc.Sst
