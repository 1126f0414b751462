import Cdoc.Foundation.BinarySearch
import Cdoc.Foundation.PrefixRange
import Cdoc.Sst.Write

/-!
# Reading tables

The model of `src/sst/read.rs`.  A reader works on the bytes of a whole
file.  Offsets come from the file and are not trusted: additions to them may
overflow and slices may be out of range, and both panic.
-/

namespace Cdoc.Sst

open Cdoc.Foundation

/-- The error which opening a table reports. -/
inductive SstError where
  | corruption (message : String)
deriving DecidableEq, Repr

/-- A mapped file, and what was parsed of it when it was opened. -/
structure SSTableReader where
  mmap : Bytes
  footer : SSTableFooter
  blockIndex : List (Bytes × Nat)
  bloom : Bytes

namespace SSTableReader

/-! ## Opening -/

/-- The loop over the block index from `pos` to `idxEnd`. -/
def parseIndex (mmap : Bytes) (idxEnd : Nat) :
    Nat → Nat → List (Bytes × Nat) → Checked (List (Bytes × Nat))
  | 0, _, _ => .error .unfinished
  | rounds + 1, pos, blockIndex =>
      if idxEnd ≤ pos then
        .ok blockIndex
      else do
        let keyStart ← addUsize pos 2
        if idxEnd < keyStart then
          return blockIndex
        else
          let low ← index mmap pos
          let high ← index mmap (pos + 1)
          let keyLen := ofLeBytes [low, high]
          let keyEnd ← addUsize keyStart keyLen
          let offsetStart ← addUsize keyEnd 16
          let next ← addUsize offsetStart 8
          if mmap.length < next then
            return blockIndex
          else
            let firstKey ← slice mmap keyStart keyEnd
            let offset ← slice mmap offsetStart next
            parseIndex mmap idxEnd rounds next
              (blockIndex ++ [(firstKey, ofLeBytes offset)])

/--
`SSTableReader::open`: footer, index and filter are parsed, and no checksum is
compared.
-/
def openTable (mmap : Bytes) : Checked (Except SstError SSTableReader) :=
  if mmap.length < FOOTER_SIZE then
    .ok (.error (.corruption "SSTable file too small"))
  else do
    let footerStart := mmap.length - FOOTER_SIZE
    let footer :=
      SSTableFooter.readFromBytes (← sliceFrom mmap footerStart)
    let idxStart := footer.indexOffset.toNat
    let idxEnd := footer.bloomOffset.toNat
    let blockIndex ←
      parseIndex mmap idxEnd (idxEnd - idxStart + 1) idxStart []
    let bloomSectionStart ← addUsize footer.bloomOffset.toNat 4
    let bloom ←
      if bloomSectionStart < footerStart then
        slice mmap bloomSectionStart footerStart
      else
        pure []
    return .ok ⟨mmap, footer, blockIndex, bloom⟩

/-! ## The bloom filter -/

/-- `bloom[bit_pos / 8] & (1 << (bit_pos % 8)) != 0`. -/
def testBit (bloom : Bytes) (bitPos : Nat) : Checked Bool := do
  let byte ← index bloom (bitPos / 8)
  return byte &&& bitMask bitPos != 0

/-- The loop over the hash functions from `i` on. -/
def bloomLoop (checksum : Checksum) (bloom key : Bytes) :
    List Nat → Checked Bool
  | [] => .ok true
  | i :: rest => do
      let h := bloomHash checksum key i
      if ← testBit bloom (h.toNat % (bloom.length * 8)) then
        bloomLoop checksum bloom key rest
      else
        return false

/-- `bloom_may_contain`: a table without a filter may contain every key. -/
def bloomMayContain (checksum : Checksum) (self : SSTableReader)
    (key : Bytes) : Checked Bool :=
  if self.bloom.isEmpty then
    .ok true
  else
    bloomLoop checksum self.bloom key (List.range BLOOM_HASH_COUNT)

/-! ## Blocks -/

/-- The local variables of the loop of `decode_block`. -/
structure Decoder where
  pos : Nat
  prevKey : Bytes
  entryCount : Nat
  entries : List (Bytes × Bytes)

/--
The loop of `decode_block`.  Positions stay below the length of the data, so
their sums do not overflow.
-/
def decodeLoop (data : Bytes) :
    Nat → Decoder → Checked (List (Bytes × Bytes))
  | 0, _ => .error .unfinished
  | rounds + 1, state =>
      if data.length < state.pos + 6 then
        .ok state.entries
      else do
        let pos := state.pos
        let shared := ofLeBytes (← slice data pos (pos + 2))
        let suffixLen := ofLeBytes (← slice data (pos + 2) (pos + 4))
        let valueLen := ofLeBytes (← slice data (pos + 4) (pos + 6))
        let pos := pos + 6
        if data.length < pos + suffixLen + valueLen then
          return state.entries
        else
          let prevKey :=
            if state.entryCount % PREFIX_RESET_INTERVAL = 0 then []
            else state.prevKey
          let suffix ← slice data pos (pos + suffixLen)
          let key := prevKey.take (min shared prevKey.length) ++ suffix
          let pos := pos + suffixLen
          let value ← slice data pos (pos + valueLen)
          decodeLoop data rounds {
            pos := pos + valueLen
            prevKey := key
            entryCount := state.entryCount + 1
            entries := state.entries ++ [(key, value)] }

/-- `self.block_index[block_idx]`. -/
def blockAt (self : SSTableReader) (blockIdx : Nat) :
    Checked (Bytes × Nat) :=
  match self.blockIndex[blockIdx]? with
  | some block => .ok block
  | none => .error .sliceIndex

/-- A block ends where the next one or the index starts. -/
def blockEnd (self : SSTableReader) (blockIdx : Nat) : Checked Nat :=
  if blockIdx + 1 < self.blockIndex.length then
    Prod.snd <$> self.blockAt (blockIdx + 1)
  else
    .ok self.footer.indexOffset.toNat

/-- `decode_block`: a block beyond the end of the file has no entries. -/
def decodeBlock (self : SSTableReader) (blockIdx : Nat) :
    Checked (List (Bytes × Bytes)) := do
  let (_, blockStart) ← self.blockAt blockIdx
  let blockEnd ← self.blockEnd blockIdx
  let dataStart ← addUsize blockStart 4
  if blockEnd ≤ dataStart ∨ self.mmap.length < blockEnd then
    return []
  else
    -- the last four bytes of a block are its checksum
    let data ← slice self.mmap blockStart (blockEnd - 4)
    decodeLoop data (data.length + 1) ⟨0, [], 0, []⟩

/-! ## Queries -/

/-- The search of `get` and `scan_prefix` in the block index. -/
def searchBlock (self : SSTableReader) (key : Bytes) : Except Nat Nat :=
  binarySearchBy self.blockIndex (fun block => compare block.1 key)

/--
`SSTableReader::get`: the filter is asked, and then the one block which can
hold the key.
-/
def get (checksum : Checksum) (self : SSTableReader) (key : Bytes) :
    Checked (Option Bytes) := do
  if !(← self.bloomMayContain checksum key) then
    return none
  else
    match self.searchBlock key with
    | .error 0 => return none
    | .ok blockIdx | .error (blockIdx + 1) =>
        let entries ← self.decodeBlock blockIdx
        return (entries.find? (fun entry => entry.1 == key)).map Prod.snd

/-- `prefix_successor`, the end of the range of a prefix. -/
def prefixSuccessor := Foundation.prefixSuccessor

/-- The test of both early exits: beyond every key with the prefix. -/
def pastPrefix (stem key : Bytes) : Bool :=
  decide (stem < key) && !decide (stem <+: key) &&
    match prefixSuccessor stem with
    | some succ => decide (¬ key < succ)
    | none => false

/-- The inner loop: the results so far, and whether the scan returns. -/
def scanEntries (stem : Bytes) :
    List (Bytes × Bytes) → List (Bytes × Bytes) →
      List (Bytes × Bytes) × Bool
  | [], results => (results, false)
  | (k, v) :: rest, results =>
      if stem <+: k then
        scanEntries stem rest (results ++ [(k, v)])
      else if pastPrefix stem k then
        (results, true)
      else
        scanEntries stem rest results

/-- The outer loop over the given blocks. -/
def scanBlocks (self : SSTableReader) (stem : Bytes)
    (startBlock : Nat) :
    List Nat → List (Bytes × Bytes) → Checked (List (Bytes × Bytes))
  | [], results => .ok results
  | blockIdx :: rest, results => do
      let (firstKey, _) ← self.blockAt blockIdx
      if startBlock < blockIdx ∧ ¬ stem <+: firstKey ∧
          pastPrefix stem firstKey then
        return results
      else
        let entries ← self.decodeBlock blockIdx
        match scanEntries stem entries results with
        | (results, true) => return results
        | (results, false) => self.scanBlocks stem startBlock rest results

/-- The block in which a scan starts. -/
def startBlock (self : SSTableReader) (stem : Bytes) : Nat :=
  match self.searchBlock stem with
  | .ok blockIdx => blockIdx
  | .error blockIdx => blockIdx - 1

/-- `scan_prefix`: from the block which can hold the prefix on. -/
def scanPrefix (self : SSTableReader) (stem : Bytes) :
    Checked (List (Bytes × Bytes)) :=
  let startBlock := self.startBlock stem
  self.scanBlocks stem startBlock
    (List.range' startBlock (self.blockIndex.length - startBlock)) []

end SSTableReader

end Cdoc.Sst
