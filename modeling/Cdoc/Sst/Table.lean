import Cdoc.Sst.Index
import Cdoc.Sst.Layout

/-!
# Opening a written table

The reader recovers the parts of the layout from the bytes: the footer, the
first key and the offset of every block, the bloom filter, and the entries
of each block.  The filter never excludes a key of the table.
-/

namespace Cdoc.Sst

open Cdoc.Foundation

/-! ## The bloom filter -/

/-- The bit at a position, false beyond the filter. -/
def hasBit (bloom : Bytes) (bitPos : Nat) : Bool :=
  match bloom[bitPos / 8]? with
  | some byte => byte &&& bitMask bitPos != 0
  | none => false

theorem bitMask_ne_zero (bitPos : Nat) : bitMask bitPos ≠ 0 := by
  have all : ∀ shift : Fin 8,
      (1 : UInt8) <<< UInt8.ofNat shift.val ≠ 0 := by
    decide
  exact all ⟨bitPos % 8, Nat.mod_lt _ (by decide)⟩

theorem octet_or_and (byte added mask : UInt8) :
    (byte ||| added) &&& mask = (byte &&& mask) ||| (added &&& mask) := by
  apply UInt8.toBitVec_inj.mp
  exact BitVec.and_or_distrib_right

@[simp]
theorem length_setBit (bloom : Bytes) (bitPos : Nat) :
    (setBit bloom bitPos).length = bloom.length := by
  simp [setBit]

theorem hasBit_setBit_self {bloom : Bytes} {bitPos : Nat}
    (inside : bitPos / 8 < bloom.length) :
    hasBit (setBit bloom bitPos) bitPos = true := by
  unfold hasBit setBit
  rw [List.getElem?_modify_eq, List.getElem?_eq_getElem inside]
  simp only [Option.map_eq_map, Option.map_some, bne_iff_ne, ne_eq,
    octet_or_and, UInt8.and_self, UInt8.or_eq_zero_iff, not_and]
  exact fun _ => bitMask_ne_zero bitPos

/-- Setting a bit clears no other. -/
theorem hasBit_setBit_of_hasBit {bloom : Bytes} {bitPos : Nat}
    (present : hasBit bloom bitPos = true) (other : Nat) :
    hasBit (setBit bloom other) bitPos = true := by
  unfold hasBit setBit at *
  rw [List.getElem?_modify]
  cases found : bloom[bitPos / 8]? with
  | none =>
      rw [found] at present
      cases present
  | some byte =>
      rw [found] at present
      simp only [Option.map_eq_map, Option.map_some]
      split
      · simp only [bne_iff_ne, ne_eq] at present ⊢
        rw [octet_or_and, UInt8.or_eq_zero_iff]
        exact fun zero => present zero.1
      · exact present

/-- Every position of a key is set. -/
def AllBits (checksum : Checksum) (bloom key : Bytes) (bits : Nat) :
    Prop :=
  ∀ i < BLOOM_HASH_COUNT,
    hasBit bloom ((bloomHash checksum key i).toNat % bits) = true

/-- The inner loop of the writer. -/
def addHashes (checksum : Checksum) (key : Bytes) (bits : Nat)
    (bloom : Bytes) (rounds : List Nat) : Bytes :=
  rounds.foldl
    (fun bloom i =>
      setBit bloom ((bloomHash checksum key i).toNat % bits))
    bloom

theorem length_addHashes (checksum : Checksum) (key : Bytes)
    (bits : Nat) (bloom : Bytes) (rounds : List Nat) :
    (addHashes checksum key bits bloom rounds).length =
      bloom.length := by
  unfold addHashes
  induction rounds generalizing bloom with
  | nil => rfl
  | cons i rest induction => rw [List.foldl_cons, induction, length_setBit]

theorem hasBit_addHashes_of_hasBit {checksum : Checksum} {key : Bytes}
    {bits : Nat} {bloom : Bytes} {bitPos : Nat}
    (present : hasBit bloom bitPos = true) (rounds : List Nat) :
    hasBit (addHashes checksum key bits bloom rounds) bitPos = true := by
  unfold addHashes
  induction rounds generalizing bloom with
  | nil => exact present
  | cons i rest induction =>
      exact induction (hasBit_setBit_of_hasBit present _)

theorem hasBit_addHashes {checksum : Checksum} {key : Bytes}
    {bits : Nat} {bloom : Bytes} (positive : 0 < bits)
    (width : bits = bloom.length * 8) {rounds : List Nat} {i : Nat}
    (member : i ∈ rounds) :
    hasBit (addHashes checksum key bits bloom rounds)
      ((bloomHash checksum key i).toNat % bits) = true := by
  induction rounds generalizing bloom with
  | nil => cases member
  | cons first rest induction =>
      rcases List.mem_cons.mp member with rfl | later
      · have below := Nat.mod_lt (bloomHash checksum key i).toNat positive
        exact hasBit_addHashes_of_hasBit
          (hasBit_setBit_self (by omega)) rest
      · exact induction (by rw [length_setBit, width]) later

/-- The number of bytes of a filter. -/
def filterLength (count : Nat) : Nat :=
  ((if count = 0 then 8 else count * 10) + 7) / 8

theorem filterLength_pos (count : Nat) : 0 < filterLength count := by
  unfold filterLength
  split <;> omega

/-- The outer loop of the writer. -/
def addKeys (checksum : Checksum) (bits : Nat) (bloom : Bytes)
    (keys : List Bytes) : Bytes :=
  keys.foldl
    (fun bloom key =>
      addHashes checksum key bits bloom (List.range BLOOM_HASH_COUNT))
    bloom

theorem buildBloom_eq (checksum : Checksum) (keys : List Bytes) :
    buildBloom checksum keys =
      addKeys checksum (filterLength keys.length * 8)
        (List.replicate (filterLength keys.length) 0) keys :=
  rfl

theorem length_addKeys (checksum : Checksum) (bits : Nat)
    (bloom : Bytes) (keys : List Bytes) :
    (addKeys checksum bits bloom keys).length = bloom.length := by
  unfold addKeys
  induction keys generalizing bloom with
  | nil => rfl
  | cons key rest induction =>
      rw [List.foldl_cons, induction, length_addHashes]

theorem AllBits.addKeys {checksum : Checksum} {bloom key : Bytes}
    {bits : Nat} (all : AllBits checksum bloom key bits)
    (keys : List Bytes) :
    AllBits checksum (addKeys checksum bits bloom keys) key bits := by
  unfold Sst.addKeys
  induction keys generalizing bloom with
  | nil => exact all
  | cons head rest induction =>
      exact induction fun i small =>
        hasBit_addHashes_of_hasBit (all i small) _

theorem allBits_addKeys {checksum : Checksum} {bloom key : Bytes}
    {bits : Nat} (positive : 0 < bits)
    (width : bits = bloom.length * 8) {keys : List Bytes}
    (member : key ∈ keys) :
    AllBits checksum (addKeys checksum bits bloom keys) key bits := by
  induction keys generalizing bloom with
  | nil => cases member
  | cons head rest induction =>
      rcases List.mem_cons.mp member with rfl | later
      · have own : AllBits checksum
            (addHashes checksum key bits bloom
              (List.range BLOOM_HASH_COUNT)) key bits :=
          fun i small => hasBit_addHashes positive width
            (List.mem_range.mpr small)
        exact own.addKeys rest
      · exact induction (by rw [length_addHashes, width]) later

theorem length_buildBloom (checksum : Checksum) (keys : List Bytes) :
    (buildBloom checksum keys).length = filterLength keys.length := by
  rw [buildBloom_eq, length_addKeys, List.length_replicate]

/-- A key of the table is never excluded. -/
theorem allBits_buildBloom {checksum : Checksum} {keys : List Bytes}
    {key : Bytes} (member : key ∈ keys) :
    AllBits checksum (buildBloom checksum keys) key
      ((buildBloom checksum keys).length * 8) := by
  have positive := filterLength_pos keys.length
  rw [length_buildBloom, buildBloom_eq]
  exact allBits_addKeys (by omega) (by rw [List.length_replicate]) member

theorem testBit_eq {bloom : Bytes} {bitPos : Nat}
    (inside : bitPos / 8 < bloom.length) :
    SSTableReader.testBit bloom bitPos =
      .ok (hasBit bloom bitPos) := by
  unfold SSTableReader.testBit index hasBit
  rw [List.getElem?_eq_getElem inside]
  rfl

/-- The loop of the reader checks the given positions. -/
theorem bloomLoop_eq {checksum : Checksum} {bloom key : Bytes}
    (nonempty : 0 < bloom.length) (rounds : List Nat) :
    SSTableReader.bloomLoop checksum bloom key rounds =
      .ok (rounds.all fun i => hasBit bloom
        ((bloomHash checksum key i).toNat % (bloom.length * 8))) := by
  induction rounds with
  | nil => rfl
  | cons i rest induction =>
      have below := Nat.mod_lt (bloomHash checksum key i).toNat
        (Nat.mul_pos nonempty (by decide : 0 < 8))
      rw [SSTableReader.bloomLoop, testBit_eq (by omega), ok_bind,
        List.all_cons, induction]
      cases hasBit bloom
        ((bloomHash checksum key i).toNat % (bloom.length * 8)) with
      | false => rfl
      | true => rfl

/-- The filter of the reader: total, and true for the keys of the table. -/
theorem bloomMayContain_spec {checksum : Checksum}
    {reader : SSTableReader} {keys : List Bytes}
    (bloom : reader.bloom = buildBloom checksum keys) (key : Bytes) :
    ∃ answer, reader.bloomMayContain checksum key = .ok answer ∧
      (key ∈ keys → answer = true) := by
  have positive : 0 < reader.bloom.length := by
    rw [bloom, length_buildBloom]
    exact filterLength_pos _
  have nonempty : reader.bloom.isEmpty = false := by
    cases shape : reader.bloom with
    | nil => simp [shape] at positive
    | cons => rfl
  unfold SSTableReader.bloomMayContain
  rw [nonempty]
  refine ⟨_, bloomLoop_eq positive _, ?_⟩
  intro member
  rw [List.all_eq_true]
  intro i inRange
  rw [bloom]
  exact allBits_buildBloom member i (List.mem_range.mp inRange)

/-! ## The entries of a block -/

theorem toNat_ofNat16 {length : Nat} (short : length ≤ 65535) :
    (UInt16.ofNat length).toNat = length := by
  rw [UInt16.toNat_ofNat']
  exact Nat.mod_eq_of_lt (by omega)

/-- The key is recovered from the shared prefix and the suffix. -/
theorem shared_append_drop (prevKey key : Bytes) (count : Nat) :
    let kept := if count % PREFIX_RESET_INTERVAL = 0 then [] else prevKey
    kept.take (min (sharedLen prevKey count key) kept.length) ++
        key.drop (sharedLen prevKey count key) =
      key := by
  unfold sharedLen
  by_cases resets : count % PREFIX_RESET_INTERVAL = 0
  · simp [resets]
  · have within := commonPrefixLen_le_left prevKey key
    simp only [resets, if_false, Nat.min_eq_left within]
    rw [take_commonPrefixLen, List.take_append_drop]

/-- One round of the loop of `decode_block` on an entry of the block. -/
theorem decodeLoop_entry {key value : Bytes} (fits : Fits (key, value))
    (before prevKey rest : Bytes) (count : Nat)
    (decoded : List (Bytes × Bytes)) (rounds : Nat) {data : Bytes}
    (shape : data = before ++ (entryBytes
      (UInt16.ofNat (sharedLen prevKey count key))
      (key.drop (sharedLen prevKey count key)) value ++ rest)) :
    SSTableReader.decodeLoop data (rounds + 1)
        ⟨before.length, prevKey, count, decoded⟩ =
      SSTableReader.decodeLoop data rounds
        ⟨data.length - rest.length, key, count + 1,
          decoded ++ [(key, value)]⟩ := by
  have sharedShort := sharedLen_le prevKey key count
  have recovered := shared_append_drop prevKey key count
  dsimp only at recovered
  generalize sharedLen prevKey count key = shared
    at shape sharedShort recovered
  have suffixShort : (key.drop shared).length ≤ 65535 := by
    rw [List.length_drop]
    exact (Nat.sub_le _ _).trans fits.1
  generalize key.drop shared = suffix at shape recovered suffixShort
  have sharedSmall : shared ≤ 65535 :=
    sharedShort.trans fits.1
  have parts : data = before ++ (leBytes 2 shared ++
      (leBytes 2 suffix.length ++ (leBytes 2 value.length ++
        (suffix ++ (value ++ rest))))) := by
    rw [shape]
    simp only [entryBytes, List.append_assoc, toNat_ofNat16 sharedSmall,
      toNat_ofNat16 suffixShort, toNat_ofNat16 fits.2]
  have length : data.length = before.length + 6 + suffix.length +
      value.length + rest.length := by
    rw [parts]
    simp only [List.length_append, length_leBytes]
    omega
  have sliceShared : slice data before.length (before.length + 2) =
      .ok (leBytes 2 shared) :=
    slice_at before (leBytes 2 shared) _ parts rfl (by simp)
  have sliceSuffixLen : slice data (before.length + 2)
      (before.length + 4) = .ok (leBytes 2 suffix.length) :=
    slice_at (before ++ leBytes 2 shared) (leBytes 2 suffix.length) _
      (by rw [parts, List.append_assoc]) (by simp) (by simp)
  have sliceValueLen : slice data (before.length + 4)
      (before.length + 6) = .ok (leBytes 2 value.length) :=
    slice_at (before ++ leBytes 2 shared ++ leBytes 2 suffix.length)
      (leBytes 2 value.length) (suffix ++ (value ++ rest))
      (by rw [parts]; simp only [List.append_assoc])
      (by simp) (by simp)
  have sliceSuffix : slice data (before.length + 6)
      (before.length + 6 + suffix.length) = .ok suffix :=
    slice_at (before ++ leBytes 2 shared ++
        leBytes 2 suffix.length ++ leBytes 2 value.length)
      suffix (value ++ rest)
      (by rw [parts]; simp only [List.append_assoc])
      (by simp) rfl
  have sliceValue : slice data (before.length + 6 + suffix.length)
      (before.length + 6 + suffix.length + value.length) = .ok value :=
    slice_at (before ++ leBytes 2 shared ++
        leBytes 2 suffix.length ++ leBytes 2 value.length ++ suffix)
      value rest
      (by rw [parts]; simp only [List.append_assoc])
      (by simp; omega) rfl
  have small : ∀ {number : Nat}, number ≤ 65535 →
      ofLeBytes (leBytes 2 number) = number :=
    fun bound => ofLeBytes_leBytes (by omega)
  have room : ¬ data.length < before.length + 6 := by omega
  have whole : ¬ data.length <
      before.length + 6 + suffix.length + value.length := by
    omega
  have position : data.length - rest.length =
      before.length + 6 + suffix.length + value.length := by
    omega
  rw [SSTableReader.decodeLoop, position]
  simp only [if_neg room, sliceShared, sliceSuffixLen, sliceValueLen,
    ok_bind, small sharedSmall, small suffixShort, small fits.2,
    if_neg whole, sliceSuffix, sliceValue, recovered]

/-- The loop of `decode_block` recovers the entries one by one. -/
theorem decodeLoop_encodeEntries {entries : List (Bytes × Bytes)}
    (fits : ∀ entry ∈ entries, Fits entry) (before prevKey : Bytes)
    (count : Nat) (decoded : List (Bytes × Bytes)) {rounds : Nat}
    (enough : entries.length < rounds) :
    SSTableReader.decodeLoop
        (before ++ encodeEntries prevKey count entries) rounds
        ⟨before.length, prevKey, count, decoded⟩ =
      .ok (decoded ++ entries) := by
  induction entries generalizing before prevKey count decoded rounds with
  | nil =>
      rcases Nat.exists_eq_succ_of_ne_zero (Nat.ne_zero_of_lt enough)
        with ⟨rounds, rfl⟩
      rw [SSTableReader.decodeLoop, encodeEntries, List.append_nil,
        if_pos (Nat.lt_add_of_pos_right (by decide)), List.append_nil]
  | cons entry entries induction =>
      rcases entry with ⟨key, value⟩
      rcases Nat.exists_eq_succ_of_ne_zero (Nat.ne_zero_of_lt enough)
        with ⟨rounds, rfl⟩
      rw [encodeEntries, Nat.succ_eq_add_one,
        decodeLoop_entry (fits (key, value) List.mem_cons_self) before
          prevKey _ count decoded rounds rfl,
        ← List.append_assoc, List.length_append, Nat.add_sub_cancel,
        induction (fun other member =>
          fits other (List.mem_cons_of_mem _ member)) _ key (count + 1)
          _ (Nat.lt_of_succ_lt_succ enough),
        List.append_assoc]
      rfl

/-! ## The parts of a file -/

theorem length_footer (footer : SSTableFooter) :
    footer.asBytes.length = FOOTER_SIZE := by
  simp [SSTableFooter.asBytes, FOOTER_SIZE]

theorem readFromBytes_asBytes (footer : SSTableFooter) :
    SSTableFooter.readFromBytes footer.asBytes = footer := by
  rcases footer with ⟨indexOffset, bloomOffset, ⟨minTimestamp⟩,
    ⟨maxTimestamp⟩, entryCount, version, checksum⟩
  have wide : ∀ number : UInt64,
      UInt64.ofNat (ofLeBytes (leBytes 8 number.toNat)) = number := by
    intro number
    rw [ofLeBytes_leBytes number.toNat_lt, UInt64.ofNat_toNat]
  have narrow : ∀ number : UInt32,
      UInt32.ofNat (ofLeBytes (leBytes 4 number.toNat)) = number := by
    intro number
    rw [ofLeBytes_leBytes number.toNat_lt, UInt32.ofNat_toNat]
  have time : ∀ number : UInt64,
      UInt64.ofNat (ofBeBytes (Timestamp.mk number).asBytes) =
        number := by
    intro number
    rw [Timestamp.ofBeBytes_asBytes, UInt64.ofNat_toNat]
  simp (disch := simp) [SSTableFooter.readFromBytes,
    SSTableFooter.asBytes, List.drop_append, List.drop_of_length_le,
    List.take_of_length_le, wide, narrow, time]

/-- What stands at the place of a written entry. -/
theorem entryAt_of_written {minTs maxTs : Timestamp} {key : Bytes}
    {offset : Nat} (short : key.length ≤ 65535)
    (reachable : offset < 2 ^ 64) (before rest : Bytes) {mmap : Bytes}
    (shape : mmap = before ++ (SSTableWriter.indexEntryBytes
      ⟨key, offset, minTs, maxTs⟩ ++ rest)) :
    entryAt mmap before.length = (key, offset) ∧
      entryEndAt mmap before.length =
        (before ++ SSTableWriter.indexEntryBytes
          ⟨key, offset, minTs, maxTs⟩).length := by
  have parts : mmap = before ++ (leBytes 2 key.length ++ (key ++
      (minTs.asBytes ++ (maxTs.asBytes ++ (leBytes 8 offset ++
        rest))))) := by
    rw [shape]
    simp only [SSTableWriter.indexEntryBytes, List.append_assoc,
      toNat_ofNat16 short]
  have keyLen : keyLenAt mmap before.length = key.length := by
    rw [keyLenAt, parts, List.drop_left,
      List.take_left' (length_leBytes 2 _)]
    exact ofLeBytes_leBytes (by omega)
  have keyBytes : (mmap.take (before.length + 2 + key.length)).drop
      (before.length + 2) = key :=
    drop_take_at (before ++ leBytes 2 key.length) key _
      (by rw [parts, List.append_assoc]) (by simp) rfl
  have offsetBytes : (mmap.take (before.length + 2 + key.length + 16 +
      8)).drop (before.length + 2 + key.length + 16) =
        leBytes 8 offset :=
    drop_take_at (before ++ leBytes 2 key.length ++ key ++
        minTs.asBytes ++ maxTs.asBytes)
      (leBytes 8 offset) rest
      (by rw [parts]; simp only [List.append_assoc])
      (by simp only [List.length_append, length_leBytes,
        Timestamp.length_asBytes])
      (by rw [length_leBytes])
  constructor
  · rw [entryAt, entryEndAt, keyEndAt, keyLen, keyBytes, offsetBytes,
      ofLeBytes_leBytes reachable]
  · rw [entryEndAt, keyEndAt, keyLen]
    simp only [SSTableWriter.indexEntryBytes, List.length_append,
      length_leBytes, Timestamp.length_asBytes]
    omega

/-- The written entries are whole. -/
theorem wholeEntries_of_written {minTs maxTs : Timestamp}
    {blocks : List (Bytes × Nat)}
    (short : ∀ block ∈ blocks,
      block.1.length ≤ 65535 ∧ block.2 < 2 ^ 64)
    (before after : Bytes) {mmap : Bytes}
    (shape : mmap = before ++ (blocks.flatMap (fun block =>
      SSTableWriter.indexEntryBytes ⟨block.1, block.2, minTs, maxTs⟩) ++
        after))
    {idxEnd : Nat}
    (ends : idxEnd = before.length + (blocks.flatMap (fun block =>
      SSTableWriter.indexEntryBytes
        ⟨block.1, block.2, minTs, maxTs⟩)).length) :
    WholeEntries mmap idxEnd before.length blocks idxEnd := by
  induction blocks generalizing before with
  | nil =>
      rw [ends, List.flatMap_nil, List.length_nil, Nat.add_zero]
      exact WholeEntries.nil _
  | cons block blocks induction =>
      rcases block with ⟨key, offset⟩
      have bounds := short (key, offset) List.mem_cons_self
      rw [List.flatMap_cons, List.append_assoc] at shape
      rw [List.flatMap_cons, List.length_append, ← Nat.add_assoc,
        ← List.length_append] at ends
      obtain ⟨found, next⟩ :=
        entryAt_of_written bounds.1 bounds.2 before _ shape
      have length := congrArg List.length shape
      rw [← List.append_assoc, List.length_append] at length
      have whole : WholeAt mmap idxEnd before.length := by
        have later : before.length + 2 ≤
            entryEndAt mmap before.length := by
          rw [entryEndAt, keyEndAt]
          omega
        exact ⟨by omega, by omega⟩
      have others := induction (fun other member =>
        short other (List.mem_cons_of_mem _ member))
        (before ++ SSTableWriter.indexEntryBytes
          ⟨key, offset, minTs, maxTs⟩)
        (by rw [shape, List.append_assoc]) ends
      rw [← next] at others
      rw [← found]
      exact WholeEntries.cons whole others

/-- The loop of `open` recovers the entries of the index. -/
theorem parseIndex_entries {minTs maxTs : Timestamp}
    {blocks : List (Bytes × Nat)}
    (short : ∀ block ∈ blocks,
      block.1.length ≤ 65535 ∧ block.2 < 2 ^ 64)
    (before after : Bytes) {mmap : Bytes}
    (shape : mmap = before ++ (blocks.flatMap (fun block =>
      SSTableWriter.indexEntryBytes ⟨block.1, block.2, minTs, maxTs⟩) ++
        after))
    (addressable : mmap.length < 2 ^ 63) {idxEnd : Nat}
    (ends : idxEnd = before.length + (blocks.flatMap (fun block =>
      SSTableWriter.indexEntryBytes
        ⟨block.1, block.2, minTs, maxTs⟩)).length)
    (parsed : List (Bytes × Nat)) {rounds : Nat}
    (enough : blocks.length < rounds) :
    SSTableReader.parseIndex mmap idxEnd rounds before.length parsed =
      .ok (parsed ++ blocks) := by
  rcases Nat.exists_eq_add_of_lt enough with ⟨more, rfl⟩
  rw [Nat.add_assoc, SSTableReader.parseIndex_wholeEntries addressable
      (wholeEntries_of_written short before after shape ends),
    SSTableReader.parseIndex, if_pos (Nat.le_refl idxEnd)]

theorem length_blockOffsets (checksum : Checksum) (start : Nat)
    (blocks : List (List (Bytes × Bytes))) :
    (blockOffsets checksum start blocks).length = blocks.length := by
  induction blocks generalizing start with
  | nil => rfl
  | cons head tail induction =>
      rw [blockOffsets, List.length_cons, induction, List.length_cons]

theorem mem_blockOffsets {checksum : Checksum} {start : Nat}
    {blocks : List (List (Bytes × Bytes))} {key : Bytes} {offset : Nat}
    (member : (key, offset) ∈ blockOffsets checksum start blocks) :
    (∃ block ∈ blocks, key = firstKey block) ∧
      offset ≤
        start + (blocks.flatMap (blockBytes checksum)).length := by
  induction blocks generalizing start with
  | nil => cases member
  | cons head tail induction =>
      rw [List.flatMap_cons, List.length_append]
      rcases List.mem_cons.mp member with first | later
      · rcases Prod.mk.inj first with ⟨rfl, rfl⟩
        exact ⟨⟨head, List.mem_cons_self, rfl⟩, by omega⟩
      · rcases induction later with ⟨⟨block, inTail, shape⟩, bound⟩
        exact ⟨⟨block, List.mem_cons_of_mem _ inTail, shape⟩, by omega⟩

theorem firstKey_mem {block : List (Bytes × Bytes)}
    (nonempty : block ≠ []) :
    ∃ value, (firstKey block, value) ∈ block := by
  cases block with
  | nil => exact absurd rfl nonempty
  | cons head tail => exact ⟨head.2, List.mem_cons_self⟩

theorem length_le_length_indexBytes (checksum : Checksum)
    (minTs maxTs : Timestamp) (blocks : List (List (Bytes × Bytes))) :
    (blockOffsets checksum 0 blocks).length ≤
      (indexBytes checksum minTs maxTs blocks).length := by
  unfold indexBytes
  generalize blockOffsets checksum 0 blocks = offsets
  induction offsets with
  | nil => simp
  | cons head tail induction =>
      simp only [List.flatMap_cons, List.length_cons, List.length_append,
        SSTableWriter.indexEntryBytes, length_leBytes] at induction ⊢
      omega

section Opening

variable {checksum : Checksum} {minTs maxTs : Timestamp}
variable {entries : List (Bytes × Bytes)} {bytes : Bytes}
variable {blocks : List (List (Bytes × Bytes))} {footer : SSTableFooter}

/-- The reader of a written table. -/
def tableReader (checksum : Checksum) (entries : List (Bytes × Bytes))
    (bytes : Bytes) (blocks : List (List (Bytes × Bytes)))
    (footer : SSTableFooter) : SSTableReader where
  mmap := bytes
  footer := footer
  blockIndex := blockOffsets checksum 0 blocks
  bloom := buildBloom checksum (entries.map Prod.fst)

theorem IsTable.index_bounds
    (table : IsTable checksum minTs maxTs entries bytes blocks footer)
    (fits : ∀ entry ∈ entries, Fits entry) :
    ∀ block ∈ blockOffsets checksum 0 blocks,
      block.1.length ≤ 65535 ∧ block.2 < 2 ^ 64 := by
  rintro ⟨key, offset⟩ member
  rcases mem_blockOffsets member with ⟨⟨block, inBlocks, rfl⟩, bound⟩
  rcases firstKey_mem (table.nonempty block inBlocks) with
    ⟨value, inBlock⟩
  have inEntries : (firstKey block, value) ∈ entries := by
    rw [← table.flatten]
    exact List.mem_flatten.mpr ⟨block, inBlocks, inBlock⟩
  have size := table.addressable
  rw [table.bytes_eq, List.length_append] at size
  exact ⟨(fits _ inEntries).1, by omega⟩

/-- Opening the bytes of a written table. -/
theorem IsTable.openTable
    (table : IsTable checksum minTs maxTs entries bytes blocks footer)
    (fits : ∀ entry ∈ entries, Fits entry) :
    SSTableReader.openTable bytes =
      .ok (.ok (tableReader checksum entries bytes blocks footer)) := by
  have shape := table.bytes_eq
  have addressable := table.addressable
  have indexOffset := table.indexOffset
  have bloomOffset := table.bloomOffset
  have bounds := table.index_bounds fits
  have enough := length_le_length_indexBytes checksum minTs maxTs blocks
  generalize data_eq : blocks.flatMap (blockBytes checksum) = data
    at shape indexOffset bloomOffset
  generalize bloom_eq : buildBloom checksum (entries.map Prod.fst) =
    bloom at shape
  have positive : 0 < bloom.length := by
    rw [← bloom_eq, length_buildBloom]
    exact filterLength_pos _
  have length : bytes.length = data.length +
      (indexBytes checksum minTs maxTs blocks).length + 4 +
        bloom.length + FOOTER_SIZE := by
    rw [shape]
    simp only [List.length_append, length_leBytes, length_footer]
    omega
  have footerStart : bytes.length - FOOTER_SIZE = data.length +
      (indexBytes checksum minTs maxTs blocks).length + 4 +
        bloom.length := by
    omega
  have sliceFooter : sliceFrom bytes (bytes.length - FOOTER_SIZE) =
      .ok footer.asBytes := by
    have whole : bytes = (data ++
        indexBytes checksum minTs maxTs blocks ++
          leBytes 4 BLOOM_HASH_COUNT ++ bloom) ++ footer.asBytes := by
      rw [shape]
      simp only [List.append_assoc]
    have start : bytes.length - FOOTER_SIZE = (data ++
        indexBytes checksum minTs maxTs blocks ++
          leBytes 4 BLOOM_HASH_COUNT ++ bloom).length := by
      rw [footerStart]
      simp only [List.length_append, length_leBytes]
    rw [start, whole]
    exact sliceFrom_append_length _ _
  have parse : SSTableReader.parseIndex bytes footer.bloomOffset.toNat
      (footer.bloomOffset.toNat - footer.indexOffset.toNat + 1)
      footer.indexOffset.toNat [] =
        .ok (blockOffsets checksum 0 blocks) := by
    rw [indexOffset]
    exact parseIndex_entries bounds data _ shape addressable bloomOffset
      [] (by rw [bloomOffset]; omega)
  have sliceBloom : slice bytes (footer.bloomOffset.toNat + 4)
      (bytes.length - FOOTER_SIZE) = .ok bloom :=
    slice_at (data ++ indexBytes checksum minTs maxTs blocks ++
        leBytes 4 BLOOM_HASH_COUNT) bloom footer.asBytes
      (by rw [shape]; simp only [List.append_assoc])
      (by
        rw [bloomOffset]
        simp only [List.length_append, length_leBytes])
      (by rw [footerStart, bloomOffset])
  have section_lt : footer.bloomOffset.toNat + 4 <
      bytes.length - FOOTER_SIZE := by
    omega
  unfold SSTableReader.openTable
  rw [if_neg (by omega)]
  simp only [sliceFooter, ok_bind, readFromBytes_asBytes, parse,
    addUsize_of_lt (show footer.bloomOffset.toNat + 4 < 2 ^ 64 by omega),
    if_pos section_lt, sliceBloom, pure_eq_ok, tableReader, bloom_eq]

theorem getElem?_blockOffsets (checksum : Checksum) (start : Nat)
    (left : List (List (Bytes × Bytes))) (block : List (Bytes × Bytes))
    (right : List (List (Bytes × Bytes))) :
    (blockOffsets checksum start (left ++ block :: right))[left.length]? =
      some (firstKey block,
        start + (left.flatMap (blockBytes checksum)).length) := by
  rw [blockOffsets_append,
    List.getElem?_append_right (by rw [length_blockOffsets]),
    length_blockOffsets, Nat.sub_self]
  rfl

theorem encodeEntries_length_pos {block : List (Bytes × Bytes)}
    (nonempty : block ≠ []) : 0 < (encodeEntries [] 0 block).length := by
  apply List.length_pos_of_ne_nil
  intro empty
  exact nonempty (encodeEntries_eq_nil_iff.mp empty)

theorem length_le_length_encodeEntries (prevKey : Bytes) (count : Nat)
    (entries : List (Bytes × Bytes)) :
    entries.length ≤ (encodeEntries prevKey count entries).length := by
  induction entries generalizing prevKey count with
  | nil => simp
  | cons head tail induction =>
      rcases head with ⟨key, value⟩
      have others := induction key (count + 1)
      simp only [encodeEntries, entryBytes, List.length_append,
        length_leBytes, List.length_cons]
      omega

theorem tableReader_blockAt (checksum : Checksum)
    (entries : List (Bytes × Bytes)) (bytes : Bytes)
    (footer : SSTableFooter) {left right : List (List (Bytes × Bytes))}
    {block : List (Bytes × Bytes)}
    (split : blocks = left ++ block :: right) :
    (tableReader checksum entries bytes blocks footer).blockAt
        left.length =
      .ok (firstKey block,
        (left.flatMap (blockBytes checksum)).length) := by
  have found := getElem?_blockOffsets checksum 0 left block right
  rw [← split, Nat.zero_add] at found
  simp only [SSTableReader.blockAt, tableReader, found]

theorem IsTable.blockEnd
    (table : IsTable checksum minTs maxTs entries bytes blocks footer)
    {left right : List (List (Bytes × Bytes))}
    {block : List (Bytes × Bytes)}
    (split : blocks = left ++ block :: right) :
    (tableReader checksum entries bytes blocks footer).blockEnd
        left.length =
      .ok ((left.flatMap (blockBytes checksum)).length +
        (blockBytes checksum block).length) := by
  have indexOffset := table.indexOffset
  unfold SSTableReader.blockEnd
  cases right with
  | nil =>
      rw [if_neg (by simp [tableReader, length_blockOffsets, split])]
      simp only [tableReader, indexOffset, split, List.flatMap_append,
        List.flatMap_cons, List.flatMap_nil, List.append_nil,
        List.length_append]
  | cons next right =>
      have nextSplit : blocks = (left ++ [block]) ++ next :: right := by
        rw [split, List.append_assoc]
        rfl
      have nextAt := tableReader_blockAt checksum entries bytes footer
        nextSplit
      rw [List.length_append, List.length_singleton] at nextAt
      rw [if_pos (by simp [tableReader, length_blockOffsets, split]),
        nextAt]
      simp

/-- Each block of a written table is decoded to its entries. -/
theorem IsTable.decodeBlock
    (table : IsTable checksum minTs maxTs entries bytes blocks footer)
    (fits : ∀ entry ∈ entries, Fits entry)
    {left right : List (List (Bytes × Bytes))}
    {block : List (Bytes × Bytes)}
    (split : blocks = left ++ block :: right) :
    (tableReader checksum entries bytes blocks footer).decodeBlock
        left.length =
      .ok block := by
  have blockFits : ∀ entry ∈ block, Fits entry := by
    intro entry member
    apply fits
    rw [← table.flatten, split]
    simp [member]
  have nonempty : block ≠ [] := table.nonempty block (by simp [split])
  have positive := encodeEntries_length_pos nonempty
  have short := length_le_length_encodeEntries [] 0 block
  have addressable := table.addressable
  have stop := table.blockEnd split
  have shape : bytes = left.flatMap (blockBytes checksum) ++
      (encodeEntries [] 0 block ++
        (leBytes 4 (checksum 0 (encodeEntries [] 0 block)).toNat ++
          (right.flatMap (blockBytes checksum) ++
            (indexBytes checksum minTs maxTs blocks ++
              (leBytes 4 BLOOM_HASH_COUNT ++
                (buildBloom checksum (entries.map Prod.fst) ++
                  footer.asBytes)))))) := by
    rw [table.bytes_eq]
    simp only [split, List.flatMap_append, List.flatMap_cons, blockBytes,
      List.append_assoc]
  have length := congrArg List.length shape
  rw [blockBytes, List.length_append, length_leBytes] at stop
  have start := tableReader_blockAt checksum entries bytes footer split
  generalize left.flatMap (blockBytes checksum) = before
    at start stop shape length
  simp only [List.length_append, length_leBytes] at length
  have sliced : slice bytes before.length
      (before.length + ((encodeEntries [] 0 block).length + 4) - 4) =
        .ok (encodeEntries [] 0 block) :=
    slice_at before (encodeEntries [] 0 block) _ shape rfl (by omega)
  have decoded := decodeLoop_encodeEntries blockFits [] [] 0 []
    (Nat.lt_succ_of_le short)
  unfold SSTableReader.decodeBlock
  simp only [start, stop, ok_bind,
    addUsize_of_lt (show before.length + 4 < 2 ^ 64 by omega)]
  rw [if_neg (by simp only [tableReader]; omega)]
  simp only [tableReader, sliced, ok_bind]
  exact decoded

end Opening

end Cdoc.Sst
