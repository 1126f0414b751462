import Cdoc.Sst.Table

/-!
# The size of a table

A bound on the bytes of a table in terms of its entries.  Below the largest
size of a vector the writer returns.
-/

namespace Cdoc.Sst

open Cdoc.Foundation

/-! ## Bounds on the parts -/

/-- More bytes than a table of the given entries takes. -/
def tableBound (entries : List (Bytes × Bytes)) : Nat :=
  (entries.map fun entry =>
    2 * entry.1.length + entry.2.length + 64).sum + 64

/-- More bytes than the blocks of the given entries take. -/
def blocksBound (entries : List (Bytes × Bytes)) : Nat :=
  (entries.map fun entry => entry.1.length + entry.2.length + 10).sum

@[simp]
theorem blocksBound_append (left right : List (Bytes × Bytes)) :
    blocksBound (left ++ right) = blocksBound left + blocksBound right := by
  simp [blocksBound]

theorem length_encodeEntries_le (prevKey : Bytes) (count : Nat)
    (entries : List (Bytes × Bytes)) :
    (encodeEntries prevKey count entries).length + 4 * entries.length ≤
      blocksBound entries := by
  induction entries generalizing prevKey count with
  | nil => simp [encodeEntries]
  | cons head tail induction =>
      rcases head with ⟨key, value⟩
      have others := induction key (count + 1)
      simp only [encodeEntries, entryBytes, List.length_append,
        length_leBytes, List.length_drop, List.length_cons, blocksBound,
        List.map_cons, List.sum_cons] at others ⊢
      omega

theorem length_blockBytes_le (checksum : Checksum)
    {block : List (Bytes × Bytes)} (nonempty : block ≠ []) :
    (blockBytes checksum block).length ≤ blocksBound block := by
  have entries := length_encodeEntries_le [] 0 block
  have positive := List.length_pos_of_ne_nil nonempty
  rw [blockBytes, List.length_append, length_leBytes]
  omega

theorem length_flatMap_blockBytes_le (checksum : Checksum)
    {blocks : List (List (Bytes × Bytes))}
    (nonempty : ∀ block ∈ blocks, block ≠ []) :
    (blocks.flatMap (blockBytes checksum)).length ≤
      blocksBound blocks.flatten := by
  induction blocks with
  | nil => simp
  | cons head tail induction =>
      have first := length_blockBytes_le checksum
        (nonempty head List.mem_cons_self)
      have others := induction fun block member =>
        nonempty block (List.mem_cons_of_mem _ member)
      rw [List.flatMap_cons, List.length_append, List.flatten_cons,
        blocksBound_append]
      exact Nat.add_le_add first others

theorem length_indexBytes_le (checksum : Checksum)
    (minTs maxTs : Timestamp) {blocks : List (List (Bytes × Bytes))}
    (nonempty : ∀ block ∈ blocks, block ≠ []) (start : Nat) :
    ((blockOffsets checksum start blocks).flatMap fun block =>
      SSTableWriter.indexEntryBytes
        ⟨block.1, block.2, minTs, maxTs⟩).length ≤
      (blocks.flatten.map fun entry => entry.1.length + 26).sum := by
  induction blocks generalizing start with
  | nil => simp [blockOffsets]
  | cons head tail induction =>
      have others := induction
        (fun block member => nonempty block
          (List.mem_cons_of_mem _ member))
        (start + (blockBytes checksum head).length)
      cases head with
      | nil => exact absurd rfl (nonempty [] List.mem_cons_self)
      | cons first rest =>
          simp only [blockOffsets, firstKey, List.flatMap_cons,
            List.length_append, SSTableWriter.indexEntryBytes,
            length_leBytes, Timestamp.length_asBytes, List.flatten_cons,
            List.map_append, List.sum_append, List.map_cons,
            List.sum_cons, List.head?_cons, Option.map_some,
            Option.getD_some] at others ⊢
          omega

/-! ## Writing does not fail -/

section Total

variable {checksum : Checksum} {minTs maxTs : Timestamp}
variable {state : SSTableWriter}
variable {blocks : List (List (Bytes × Bytes))}
variable {current : List (Bytes × Bytes)}

theorem emit_of_small {data : Bytes}
    (small : state.writer.length + data.length < 2 ^ 63) :
    ∃ result, state.emit data = .ok result := by
  unfold SSTableWriter.emit extendVec
  rw [if_pos small]
  exact ⟨_, rfl⟩

theorem Progress.length_writer_le
    (progress : Progress checksum minTs maxTs state blocks current) :
    state.writer.length ≤ blocksBound blocks.flatten := by
  rw [progress.writer]
  exact length_flatMap_blockBytes_le checksum progress.nonempty

theorem Progress.finishBlock_of_small
    (progress : Progress checksum minTs maxTs state blocks current)
    (small : blocksBound (blocks.flatten ++ current) < 2 ^ 63) :
    ∃ result, state.finishBlock checksum = .ok result := by
  unfold SSTableWriter.finishBlock
  split
  · exact ⟨_, rfl⟩
  · rename_i someBuf
    have nonempty : current ≠ [] := by
      intro empty
      apply someBuf
      rw [progress.blockBuf, empty]
      rfl
    have written := progress.length_writer_le
    have entries := length_encodeEntries_le [] 0 current
    have positive := List.length_pos_of_ne_nil nonempty
    rw [blocksBound_append] at small
    have fits : state.writer.length + (state.blockBuf ++ leBytes 4
        ((Hasher.new.update state.blockBuf).finalize
          checksum).toNat).length < 2 ^ 63 := by
      rw [List.length_append, length_leBytes, progress.blockBuf]
      omega
    rcases emit_of_small fits with ⟨result, emitted⟩
    dsimp only
    rw [emitted]
    exact ⟨_, rfl⟩

theorem Progress.finishFullBlock_of_small
    (progress : Progress checksum minTs maxTs state blocks current)
    (small : blocksBound (blocks.flatten ++ current) < 2 ^ 63) :
    ∃ result, state.finishFullBlock checksum = .ok result := by
  unfold SSTableWriter.finishFullBlock
  split
  · exact progress.finishBlock_of_small small
  · exact ⟨_, rfl⟩

theorem Progress.add_of_small
    (progress : Progress checksum minTs maxTs state blocks current)
    (small : blocksBound (blocks.flatten ++ current) < 2 ^ 63)
    {key : Bytes} (short : key.length ≤ 65535) (value : Bytes) :
    ∃ result, state.add checksum key value = .ok result := by
  rcases progress.finishFullBlock_of_small small with ⟨ready, finished⟩
  unfold SSTableWriter.add
  rw [finished, ok_bind]
  dsimp only
  generalize (ready.recordFirst key).prevKey = prevKey
  have sliced : (if (ready.recordFirst key).entriesInBlock %
      PREFIX_RESET_INTERVAL = 0 then 0
      else UInt16.ofNat (commonPrefixLen prevKey key)).toNat ≤
        key.length := by
    split
    · exact Nat.zero_le _
    · have shared := commonPrefixLen_le_right prevKey key
      rw [UInt16.toNat_ofNat', Nat.mod_eq_of_lt (by omega)]
      exact shared
  rw [sliceFrom_of_le sliced]
  exact ⟨_, rfl⟩

theorem Progress.addAll_of_small
    (progress : Progress checksum minTs maxTs state blocks current)
    {entries : List (Bytes × Bytes)}
    (fits : ∀ entry ∈ entries, Fits entry)
    (small : blocksBound (blocks.flatten ++ current ++ entries) <
      2 ^ 63) :
    ∃ result, entries.foldlM
      (fun writer entry => writer.add checksum entry.1 entry.2) state =
        .ok result := by
  induction entries generalizing state blocks current with
  | nil => exact ⟨state, rfl⟩
  | cons entry entries induction =>
      have entryFits := fits entry List.mem_cons_self
      have before : blocksBound (blocks.flatten ++ current) < 2 ^ 63 := by
        rw [blocksBound_append] at small
        omega
      rcases progress.add_of_small before entryFits.1 entry.2 with
        ⟨next, added⟩
      rcases progress.add entryFits added with
        ⟨nextBlocks, nextCurrent, nextProgress, nextEntries⟩
      rw [List.foldlM_cons, added, ok_bind]
      apply induction nextProgress
        (fun other member => fits other (List.mem_cons_of_mem _ member))
      rw [nextEntries, List.append_assoc]
      exact small

theorem finish_of_small {sealed : SSTableWriter}
    (finished : state.finishBlock checksum = .ok sealed)
    (small : sealed.writer.length +
      (sealed.index.flatMap SSTableWriter.indexEntryBytes).length + 4 +
        (buildBloom checksum sealed.allKeys).length + FOOTER_SIZE <
      2 ^ 63) :
    ∃ bytes, state.finish checksum = .ok bytes := by
  have first : sealed.writer.length +
      (sealed.index.flatMap SSTableWriter.indexEntryBytes).length <
        2 ^ 63 := by
    omega
  rcases emit_of_small first with ⟨indexed, emitIndex⟩
  rcases emit_parts emitIndex with ⟨indexedWriter, -, indexedKeys⟩
  have indexedLength := congrArg List.length indexedWriter
  rw [List.length_append] at indexedLength
  have second : indexed.writer.length +
      (leBytes 4 BLOOM_HASH_COUNT).length < 2 ^ 63 := by
    rw [length_leBytes]
    omega
  rcases emit_of_small second with ⟨hashed, emitHash⟩
  have hashedLength := congrArg List.length (emit_parts emitHash).1
  rw [List.length_append, length_leBytes] at hashedLength
  have third : hashed.writer.length +
      (buildBloom checksum indexed.allKeys).length < 2 ^ 63 := by
    rw [indexedKeys]
    omega
  rcases emit_of_small third with ⟨filtered, emitBloom⟩
  have filteredLength := congrArg List.length (emit_parts emitBloom).1
  rw [List.length_append, indexedKeys] at filteredLength
  unfold SSTableWriter.finish
  simp only [finished, emitIndex, emitHash, emitBloom, ok_bind]
  unfold extendVec
  rw [if_pos]
  · exact ⟨_, rfl⟩
  · rw [length_footer]
    omega

end Total

theorem bounds_le (entries : List (Bytes × Bytes)) :
    blocksBound entries +
      (entries.map fun entry => entry.1.length + 26).sum + 4 +
        filterLength entries.length + FOOTER_SIZE ≤
      tableBound entries := by
  have filter : filterLength entries.length ≤ 2 * entries.length + 1 := by
    unfold filterLength
    split <;> omega
  have sums : blocksBound entries +
      (entries.map fun entry => entry.1.length + 26).sum +
        2 * entries.length ≤
      (entries.map fun entry =>
        2 * entry.1.length + entry.2.length + 64).sum := by
    unfold blocksBound
    clear filter
    induction entries with
    | nil => simp
    | cons head tail induction =>
        simp only [List.map_cons, List.sum_cons, List.length_cons]
        omega
  simp only [tableBound, FOOTER_SIZE]
  omega

/-- Entries which fit into a vector are written. -/
theorem writeTable_of_small (checksum : Checksum)
    (minTs maxTs : Timestamp) {entries : List (Bytes × Bytes)}
    (fits : ∀ entry ∈ entries, Fits entry)
    (small : tableBound entries < 2 ^ 63) :
    ∃ bytes, writeTable checksum minTs maxTs entries = .ok bytes := by
  have bounds := bounds_le entries
  have start := new_progress checksum minTs maxTs
  rcases start.addAll_of_small fits
    (by rw [List.flatten_nil, List.nil_append, List.nil_append]; omega)
    with ⟨writer, added⟩
  rcases start.addAll fits added with
    ⟨blocks, current, progress, sameEntries⟩
  rw [List.flatten_nil, List.nil_append, List.nil_append] at sameEntries
  rcases progress.finishBlock_of_small (by rw [sameEntries]; omega) with
    ⟨sealed, finished⟩
  have layout := progress.finishBlock finished
  have allEntries : (withOpen blocks current).flatten = entries := by
    rw [withOpen_flatten, sameEntries]
  have written := layout.length_writer_le
  have index := length_indexBytes_le checksum minTs maxTs
    layout.nonempty 0
  rw [allEntries] at written index
  have indexLength :
      (sealed.index.flatMap SSTableWriter.indexEntryBytes).length ≤
        (entries.map fun entry => entry.1.length + 26).sum := by
    rw [layout.index, List.flatMap_map]
    exact index
  have keys : sealed.allKeys = entries.map Prod.fst := by
    rw [layout.allKeys, List.append_nil, allEntries]
  have bloomLength : (buildBloom checksum sealed.allKeys).length =
      filterLength entries.length := by
    rw [length_buildBloom, keys, List.length_map]
  unfold writeTable
  rw [added, ok_bind]
  exact finish_of_small finished (by omega)

end Cdoc.Sst
