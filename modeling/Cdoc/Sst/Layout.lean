import Cdoc.Sst.Write

/-!
# The layout of a table

A table is made of blocks, each a non-empty list of entries.  The bytes of a
block are a function of its entries alone, so the writer can be described by
the blocks it has finished and the entries of the open one.

`writeTable_eq_ok` states what a finished table consists of.
-/

namespace Cdoc.Sst

open Cdoc.Foundation

/-- Keys and values whose lengths fit into two bytes. -/
def Fits (entry : Bytes × Bytes) : Prop :=
  entry.1.length ≤ 65535 ∧ entry.2.length ≤ 65535

instance (entry : Bytes × Bytes) : Decidable (Fits entry) :=
  inferInstanceAs (Decidable (_ ∧ _))

/-! ## Shared prefixes -/

theorem commonPrefixLen_le_left (left right : Bytes) :
    commonPrefixLen left right ≤ left.length := by
  induction left generalizing right with
  | nil => simp [commonPrefixLen]
  | cons head tail induction =>
      cases right with
      | nil => simp [commonPrefixLen]
      | cons other others =>
          rw [commonPrefixLen]
          split
          · exact Nat.succ_le_succ (induction others)
          · exact Nat.zero_le _

theorem take_commonPrefixLen (left right : Bytes) :
    left.take (commonPrefixLen left right) =
      right.take (commonPrefixLen left right) := by
  induction left generalizing right with
  | nil => simp [commonPrefixLen]
  | cons head tail induction =>
      cases right with
      | nil => simp [commonPrefixLen]
      | cons other others =>
          rw [commonPrefixLen]
          split
          · rename_i same
            rw [List.take_succ_cons, List.take_succ_cons, same,
              induction]
          · rfl

theorem commonPrefixLen_le_right (left right : Bytes) :
    commonPrefixLen left right ≤ right.length := by
  induction left generalizing right with
  | nil => simp [commonPrefixLen]
  | cons head tail induction =>
      cases right with
      | nil => simp [commonPrefixLen]
      | cons other others =>
          rw [commonPrefixLen]
          split
          · exact Nat.succ_le_succ (induction others)
          · exact Nat.zero_le _

/-! ## Blocks -/

/-- The number of bytes which an entry shares with the one before it. -/
def sharedLen (prevKey : Bytes) (count : Nat) (key : Bytes) : Nat :=
  if count % PREFIX_RESET_INTERVAL = 0 then 0
  else commonPrefixLen prevKey key

/-- The entries of a block behind `count` others, the last of them given. -/
def encodeEntries : Bytes → Nat → List (Bytes × Bytes) → Bytes
  | _, _, [] => []
  | prevKey, count, (key, value) :: rest =>
      let shared := sharedLen prevKey count key
      entryBytes (UInt16.ofNat shared) (key.drop shared) value ++
        encodeEntries key (count + 1) rest

/-- The key behind which an entry comes. -/
def lastKey (entries : List (Bytes × Bytes)) : Bytes :=
  (entries.getLast?.map Prod.fst).getD []

theorem lastKey_concat (entries : List (Bytes × Bytes))
    (entry : Bytes × Bytes) :
    lastKey (entries ++ [entry]) = entry.1 := by
  simp [lastKey]

theorem encodeEntries_append (prevKey : Bytes) (count : Nat)
    (left right : List (Bytes × Bytes)) :
    encodeEntries prevKey count (left ++ right) =
      encodeEntries prevKey count left ++
        encodeEntries (if left = [] then prevKey else lastKey left)
          (count + left.length) right := by
  induction left generalizing prevKey count with
  | nil => rfl
  | cons head tail induction =>
      rcases head with ⟨key, value⟩
      have last : lastKey ((key, value) :: tail) =
          if tail = [] then key else lastKey tail := by
        cases tail with
        | nil => rfl
        | cons next others => simp [lastKey]
      have counted : count + 1 + tail.length =
          count + ((key, value) :: tail).length := by
        rw [List.length_cons]
        omega
      rw [List.cons_append, encodeEntries, encodeEntries, induction,
        List.append_assoc, if_neg (List.cons_ne_nil _ _), last, counted]

theorem encodeEntries_eq_nil_iff {prevKey : Bytes} {count : Nat}
    {entries : List (Bytes × Bytes)} :
    encodeEntries prevKey count entries = [] ↔ entries = [] := by
  cases entries with
  | nil => simp [encodeEntries]
  | cons head tail =>
      simp [encodeEntries, entryBytes, leBytes]

/-- The bytes of a finished block: its entries and their checksum. -/
def blockBytes (checksum : Checksum) (block : List (Bytes × Bytes)) :
    Bytes :=
  encodeEntries [] 0 block ++
    leBytes 4 (checksum 0 (encodeEntries [] 0 block)).toNat

/-- The first key of a block which is not empty. -/
def firstKey (block : List (Bytes × Bytes)) : Bytes :=
  (block.head?.map Prod.fst).getD []

/-- First key and offset of successive blocks. -/
def blockOffsets (checksum : Checksum) :
    Nat → List (List (Bytes × Bytes)) → List (Bytes × Nat)
  | _, [] => []
  | start, block :: blocks =>
      (firstKey block, start) ::
        blockOffsets checksum
          (start + (blockBytes checksum block).length) blocks

theorem blockOffsets_append (checksum : Checksum) (start : Nat)
    (left right : List (List (Bytes × Bytes))) :
    blockOffsets checksum start (left ++ right) =
      blockOffsets checksum start left ++
        blockOffsets checksum
          (start + (left.flatMap (blockBytes checksum)).length)
          right := by
  induction left generalizing start with
  | nil => rfl
  | cons head tail induction =>
      rw [List.cons_append, blockOffsets, blockOffsets, induction,
        List.cons_append, List.flatMap_cons, List.length_append,
        Nat.add_assoc]

/-! ## The state of the writer -/

/-- The blocks which are on record once the open one counts as well. -/
def withOpen (blocks : List (List (Bytes × Bytes)))
    (current : List (Bytes × Bytes)) : List (List (Bytes × Bytes)) :=
  if current = [] then blocks else blocks ++ [current]

theorem withOpen_flatten (blocks : List (List (Bytes × Bytes)))
    (current : List (Bytes × Bytes)) :
    (withOpen blocks current).flatten = blocks.flatten ++ current := by
  unfold withOpen
  split
  · rename_i empty
    rw [empty, List.append_nil]
  · simp

/-- The writer has finished `blocks` and holds `current` in its buffer. -/
structure Progress (checksum : Checksum) (minTs maxTs : Timestamp)
    (state : SSTableWriter) (blocks : List (List (Bytes × Bytes)))
    (current : List (Bytes × Bytes)) : Prop where
  writer : state.writer = blocks.flatMap (blockBytes checksum)
  addressable : state.writer.length < 2 ^ 63
  bytesWritten : state.bytesWritten = state.writer.length
  blockBuf : state.blockBuf = encodeEntries [] 0 current
  prevKey : state.prevKey = lastKey current
  entriesInBlock : state.entriesInBlock = current.length
  index : state.index =
    (blockOffsets checksum 0 (withOpen blocks current)).map
      fun block => ⟨block.1, block.2, minTs, maxTs⟩
  nonempty : ∀ block ∈ blocks, block ≠ []
  allKeys : state.allKeys = (blocks.flatten ++ current).map Prod.fst
  minTs_eq : state.minTs = minTs
  maxTs_eq : state.maxTs = maxTs

section Writing

variable {checksum : Checksum} {minTs maxTs : Timestamp}
variable {state result : SSTableWriter}
variable {blocks : List (List (Bytes × Bytes))}
variable {current : List (Bytes × Bytes)}

theorem new_progress (checksum : Checksum) (minTs maxTs : Timestamp) :
    Progress checksum minTs maxTs (SSTableWriter.new minTs maxTs) []
      [] where
  writer := rfl
  addressable := by simp [SSTableWriter.new]
  bytesWritten := rfl
  blockBuf := rfl
  prevKey := rfl
  entriesInBlock := rfl
  index := rfl
  nonempty := by simp
  allKeys := rfl
  minTs_eq := rfl
  maxTs_eq := rfl

theorem extendVec_eq_ok_iff {written data result : Bytes} :
    extendVec written data = .ok result ↔
      written.length + data.length < 2 ^ 63 ∧
        result = written ++ data := by
  unfold extendVec
  split
  · rename_i fits
    simp only [Except.ok.injEq, fits, true_and, eq_comm]
  · rename_i large
    simp only [reduceCtorEq, large, false_and]

theorem emit_eq_ok {data : Bytes}
    (emitted : state.emit data = .ok result) :
    (state.writer ++ data).length < 2 ^ 63 ∧
      result = { state with
        writer := state.writer ++ data
        fileHasher := state.fileHasher.update data
        bytesWritten := state.bytesWritten + data.length } := by
  rcases bind_eq_ok_iff.mp emitted with ⟨writer, extended, done⟩
  rcases extendVec_eq_ok_iff.mp extended with ⟨fits, rfl⟩
  cases done
  exact ⟨by rwa [List.length_append], rfl⟩

theorem emit_parts {data : Bytes}
    (emitted : state.emit data = .ok result) :
    result.writer = state.writer ++ data ∧
      result.bytesWritten = state.bytesWritten + data.length ∧
      result.allKeys = state.allKeys := by
  rcases emit_eq_ok emitted with ⟨-, rfl⟩
  exact ⟨rfl, rfl, rfl⟩

/-- A finished block joins the others. -/
theorem Progress.finishBlock
    (progress : Progress checksum minTs maxTs state blocks current)
    (finished : state.finishBlock checksum = .ok result) :
    Progress checksum minTs maxTs result (withOpen blocks current)
      [] := by
  unfold SSTableWriter.finishBlock at finished
  by_cases empty : current = []
  · have noBuf : state.blockBuf = [] := by
      rw [progress.blockBuf, empty]
      rfl
    rw [if_pos (by rw [noBuf]; rfl)] at finished
    cases finished
    subst empty
    exact progress
  · have someBuf : state.blockBuf.isEmpty = false := by
      rw [progress.blockBuf]
      cases shape : encodeEntries [] 0 current with
      | nil => exact absurd (encodeEntries_eq_nil_iff.mp shape) empty
      | cons => rfl
    rw [someBuf] at finished
    rcases bind_eq_ok_iff.mp finished with ⟨emitted, emit, done⟩
    rcases emit_eq_ok emit with ⟨fits, rfl⟩
    cases done
    have block : state.blockBuf ++ leBytes 4
        ((Hasher.new.update state.blockBuf).finalize checksum).toNat =
        blockBytes checksum current := by
      rw [progress.blockBuf]
      rfl
    rw [block] at fits
    have joined : withOpen blocks current = blocks ++ [current] :=
      if_neg empty
    have index := progress.index
    rw [joined] at index ⊢
    exact {
      writer := by
        simp only [block, progress.writer, List.flatMap_append,
          List.flatMap_singleton]
      addressable := by
        rw [block]
        exact fits
      bytesWritten := by
        rw [block]
        simp only [progress.bytesWritten, List.length_append]
      blockBuf := rfl
      prevKey := rfl
      entriesInBlock := rfl
      index := index
      nonempty := by
        intro entries member
        rcases List.mem_append.mp member with before | last
        · exact progress.nonempty entries before
        · rw [List.mem_singleton.mp last]
          exact empty
      allKeys := by
        simp [progress.allKeys]
      minTs_eq := progress.minTs_eq
      maxTs_eq := progress.maxTs_eq }

/-- The entry is written behind those of the open block. -/
theorem Progress.appendEntry
    (progress : Progress checksum minTs maxTs state blocks current)
    (key value : Bytes) {index : List BlockIndexEntry}
    (indexed : index = if current = [] then
      state.index ++ [⟨key, state.bytesWritten, minTs, maxTs⟩]
      else state.index) :
    Progress checksum minTs maxTs
      { state with
        index := index
        blockBuf := state.blockBuf ++
          entryBytes (UInt16.ofNat (sharedLen (lastKey current)
              current.length key))
            (key.drop (sharedLen (lastKey current) current.length key))
            value
        prevKey := key
        entriesInBlock := state.entriesInBlock + 1
        allKeys := state.allKeys ++ [key] }
      blocks (current ++ [(key, value)]) where
  writer := progress.writer
  addressable := progress.addressable
  bytesWritten := progress.bytesWritten
  blockBuf := by
    rw [progress.blockBuf, encodeEntries_append, Nat.zero_add]
    have last : (if current = [] then [] else lastKey current) =
        lastKey current := by
      split
      · rename_i empty
        rw [empty]
        rfl
      · rfl
    rw [last]
    simp [encodeEntries]
  prevKey := (lastKey_concat current (key, value)).symm
  entriesInBlock := by
    rw [progress.entriesInBlock, List.length_append]
    rfl
  index := by
    have present := progress.index
    have opened : withOpen blocks (current ++ [(key, value)]) =
        blocks ++ [current ++ [(key, value)]] := by
      simp [withOpen]
    rw [indexed, opened, blockOffsets_append]
    by_cases empty : current = []
    · rw [empty, withOpen, if_pos rfl] at present
      rw [if_pos empty, present, empty, progress.bytesWritten,
        progress.writer]
      simp [blockOffsets, firstKey]
    · rw [withOpen, if_neg empty, blockOffsets_append] at present
      rw [if_neg empty, present]
      have sameFirst : firstKey (current ++ [(key, value)]) =
          firstKey current := by
        cases current with
        | nil => exact absurd rfl empty
        | cons => rfl
      simp [blockOffsets, sameFirst]
  nonempty := progress.nonempty
  allKeys := by
    simp [progress.allKeys]
  minTs_eq := progress.minTs_eq
  maxTs_eq := progress.maxTs_eq

theorem toNat_sharedLen {prevKey key : Bytes} {count : Nat}
    (short : key.length ≤ 65535) :
    (UInt16.ofNat (sharedLen prevKey count key)).toNat =
      sharedLen prevKey count key := by
  rw [UInt16.toNat_ofNat']
  apply Nat.mod_eq_of_lt
  have bound := commonPrefixLen_le_right prevKey key
  unfold sharedLen
  split <;> omega

theorem sharedLen_le (prevKey key : Bytes) (count : Nat) :
    sharedLen prevKey count key ≤ key.length := by
  have bound := commonPrefixLen_le_right prevKey key
  unfold sharedLen
  split <;> omega

theorem Progress.finishFullBlock
    (progress : Progress checksum minTs maxTs state blocks current)
    (finished : state.finishFullBlock checksum = .ok result) :
    ∃ blocks' current',
      Progress checksum minTs maxTs result blocks' current' ∧
        blocks'.flatten ++ current' = blocks.flatten ++ current := by
  unfold SSTableWriter.finishFullBlock at finished
  split at finished
  · refine ⟨_, [], progress.finishBlock finished, ?_⟩
    rw [withOpen_flatten, List.append_nil]
  · cases finished
    exact ⟨blocks, current, progress, rfl⟩

/-- Adding an entry keeps the layout and the order of the entries. -/
theorem Progress.add
    (progress : Progress checksum minTs maxTs state blocks current)
    {key value : Bytes} (fits : Fits (key, value))
    (added : state.add checksum key value = .ok result) :
    ∃ blocks' current',
      Progress checksum minTs maxTs result blocks' current' ∧
        blocks'.flatten ++ current' =
          blocks.flatten ++ current ++ [(key, value)] := by
  rcases bind_eq_ok_iff.mp added with ⟨ready, finished, added⟩
  rcases progress.finishFullBlock finished with
    ⟨blocks', current', readied, sameEntries⟩
  refine ⟨blocks', current' ++ [(key, value)], ?_, by
    rw [← List.append_assoc, sameEntries]⟩
  have count := readied.entriesInBlock
  have empty_iff : ready.entriesInBlock = 0 ↔ current' = [] := by
    rw [count, List.length_eq_zero_iff]
  have recorded : ready.recordFirst key = { ready with
      index := if current' = [] then
        ready.index ++ [⟨key, ready.bytesWritten, minTs, maxTs⟩]
        else ready.index
      prevKey := lastKey current' } := by
    unfold SSTableWriter.recordFirst
    by_cases empty : current' = []
    · rw [if_pos (empty_iff.mpr empty), if_pos empty, empty,
        readied.minTs_eq, readied.maxTs_eq]
      rfl
    · rw [if_neg (fun zero => empty (empty_iff.mp zero)),
        if_neg empty, ← readied.prevKey]
  have shared : (if ready.entriesInBlock % PREFIX_RESET_INTERVAL = 0
      then 0
      else UInt16.ofNat (commonPrefixLen (lastKey current') key)) =
      UInt16.ofNat (sharedLen (lastKey current') current'.length
        key) := by
    unfold sharedLen
    rw [count]
    split <;> rfl
  rw [recorded] at added
  dsimp only at added
  rw [shared, toNat_sharedLen fits.1,
    sliceFrom_of_le (sharedLen_le _ _ _), ok_bind] at added
  cases added
  exact readied.appendEntry key value rfl

/-- Adding entries one by one. -/
theorem Progress.addAll
    (progress : Progress checksum minTs maxTs state blocks current)
    {entries : List (Bytes × Bytes)}
    (fits : ∀ entry ∈ entries, Fits entry)
    (added : entries.foldlM
      (fun writer entry => writer.add checksum entry.1 entry.2) state =
        .ok result) :
    ∃ blocks' current',
      Progress checksum minTs maxTs result blocks' current' ∧
        blocks'.flatten ++ current' =
          blocks.flatten ++ current ++ entries := by
  induction entries generalizing state blocks current with
  | nil =>
      cases added
      exact ⟨blocks, current, progress, by simp⟩
  | cons entry entries induction =>
      rw [List.foldlM_cons] at added
      rcases bind_eq_ok_iff.mp added with ⟨next, first, others⟩
      rcases progress.add (fits entry List.mem_cons_self) first with
        ⟨nextBlocks, nextCurrent, nextProgress, nextEntries⟩
      rcases induction nextProgress
        (fun other member => fits other (List.mem_cons_of_mem _ member))
        others with ⟨blocks', current', finalProgress, finalEntries⟩
      refine ⟨blocks', current', finalProgress, ?_⟩
      rw [finalEntries, nextEntries]
      simp

end Writing

/-! ## Finished tables -/

/-- The index of a table with the given blocks. -/
def indexBytes (checksum : Checksum) (minTs maxTs : Timestamp)
    (blocks : List (List (Bytes × Bytes))) : Bytes :=
  (blockOffsets checksum 0 blocks).flatMap fun block =>
    SSTableWriter.indexEntryBytes ⟨block.1, block.2, minTs, maxTs⟩

/-- The parts of a table which was written from the given entries. -/
structure IsTable (checksum : Checksum) (minTs maxTs : Timestamp)
    (entries : List (Bytes × Bytes)) (bytes : Bytes)
    (blocks : List (List (Bytes × Bytes))) (footer : SSTableFooter) :
    Prop where
  flatten : blocks.flatten = entries
  nonempty : ∀ block ∈ blocks, block ≠ []
  bytes_eq : bytes =
    blocks.flatMap (blockBytes checksum) ++
      (indexBytes checksum minTs maxTs blocks ++
        (leBytes 4 BLOOM_HASH_COUNT ++
          (buildBloom checksum (entries.map Prod.fst) ++
            footer.asBytes)))
  addressable : bytes.length < 2 ^ 63
  indexOffset : footer.indexOffset.toNat =
    (blocks.flatMap (blockBytes checksum)).length
  bloomOffset : footer.bloomOffset.toNat =
    (blocks.flatMap (blockBytes checksum)).length +
      (indexBytes checksum minTs maxTs blocks).length

/-- What `finish` returns. -/
theorem writeTable_eq_ok {checksum : Checksum} {minTs maxTs : Timestamp}
    {entries : List (Bytes × Bytes)} {bytes : Bytes}
    (fits : ∀ entry ∈ entries, Fits entry)
    (written : writeTable checksum minTs maxTs entries = .ok bytes) :
    ∃ blocks footer,
      IsTable checksum minTs maxTs entries bytes blocks footer := by
  rcases bind_eq_ok_iff.mp written with ⟨writer, added, finished⟩
  rcases (new_progress checksum minTs maxTs).addAll fits added with
    ⟨blocks, current, progress, sameEntries⟩
  rcases bind_eq_ok_iff.mp finished with ⟨sealed, finishBlock, finished⟩
  have layout := progress.finishBlock finishBlock
  rcases bind_eq_ok_iff.mp finished with ⟨indexed, emitIndex, finished⟩
  rcases bind_eq_ok_iff.mp finished with ⟨hashed, emitHash, finished⟩
  rcases bind_eq_ok_iff.mp finished with ⟨filtered, emitBloom, finished⟩
  rcases extendVec_eq_ok_iff.mp finished with ⟨addressable, bytes_eq⟩
  generalize footer_eq : SSTableFooter.mk
    (UInt64.ofNat sealed.bytesWritten)
    (UInt64.ofNat indexed.bytesWritten) _ _ _ _ _ = footer
    at addressable bytes_eq
  have allEntries : (withOpen blocks current).flatten = entries := by
    rw [withOpen_flatten, sameEntries]
    rfl
  have keys : indexed.allKeys = entries.map Prod.fst := by
    rw [(emit_parts emitIndex).2.2, layout.allKeys, List.append_nil,
      allEntries]
  have index : sealed.index.flatMap SSTableWriter.indexEntryBytes =
      indexBytes checksum minTs maxTs (withOpen blocks current) := by
    rw [layout.index, withOpen, if_pos rfl, indexBytes,
      List.flatMap_map]
  rw [← List.length_append, ← bytes_eq] at addressable
  have parts : bytes = (withOpen blocks current).flatMap
      (blockBytes checksum) ++
        (indexBytes checksum minTs maxTs (withOpen blocks current) ++
          (leBytes 4 BLOOM_HASH_COUNT ++
            (buildBloom checksum (entries.map Prod.fst) ++
              footer.asBytes))) := by
    rw [bytes_eq, (emit_parts emitBloom).1, (emit_parts emitHash).1,
      (emit_parts emitIndex).1, layout.writer, index, keys]
    simp only [List.append_assoc]
  have lengths := congrArg List.length parts
  simp only [List.length_append] at lengths
  refine ⟨withOpen blocks current, footer, allEntries, layout.nonempty,
    parts, addressable, ?_, ?_⟩
  · subst footer_eq
    show (UInt64.ofNat sealed.bytesWritten).toNat = _
    rw [layout.bytesWritten, layout.writer, UInt64.toNat_ofNat']
    exact Nat.mod_eq_of_lt (by omega)
  · subst footer_eq
    show (UInt64.ofNat indexed.bytesWritten).toNat = _
    rw [(emit_parts emitIndex).2.1, layout.bytesWritten, layout.writer,
      index, UInt64.toNat_ofNat']
    exact Nat.mod_eq_of_lt (by omega)

end Cdoc.Sst
