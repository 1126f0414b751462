import Cdoc.Sst.Table

/-!
# Reading damaged tables

The bytes of a file are arbitrary here.  Opening reads the entries of the
index one after the other, as long as they are whole.  It compares lengths
with the file before it slices, except for the two bytes of a key length,
and it adds to offsets before it compares them.

No slice is longer than `isize::MAX`, so a mapped file has fewer than 2 ^ 63
bytes.  Only the number of bits of its filter may then still overflow.
-/

namespace Cdoc.Sst

open Cdoc.Foundation

/-! ## Blocks -/

namespace SSTableReader

/-- The filter answers for every key, whatever its bytes. -/
theorem exists_bloomMayContain (checksum : Checksum) (self : SSTableReader)
    (key : Bytes) :
    ∃ answer, self.bloomMayContain checksum key = .ok answer := by
  unfold bloomMayContain
  cases shape : self.bloom with
  | nil => exact ⟨true, rfl⟩
  | cons first others =>
      have positive : 0 < (first :: others).length := Nat.zero_lt_succ _
      exact ⟨_, bloomLoop_eq positive _⟩

/-- Entries are decoded as long as they are whole. -/
theorem exists_decodeLoop {data : Bytes} {rounds : Nat} {state : Decoder}
    (within : state.pos ≤ data.length)
    (enough : data.length < state.pos + rounds) :
    ∃ entries, decodeLoop data rounds state = .ok entries := by
  induction rounds generalizing state with
  | zero => omega
  | succ rounds induction =>
      rw [decodeLoop]
      by_cases ended : data.length < state.pos + 6
      · exact ⟨_, if_pos ended⟩
      rw [if_neg ended]
      simp only [slice_of_le
          (show state.pos ≤ state.pos + 2 by omega)
          (show state.pos + 2 ≤ data.length by omega),
        slice_of_le (show state.pos + 2 ≤ state.pos + 4 by omega)
          (show state.pos + 4 ≤ data.length by omega),
        slice_of_le (show state.pos + 4 ≤ state.pos + 6 by omega)
          (show state.pos + 6 ≤ data.length by omega), ok_bind]
      split
      · exact ⟨_, rfl⟩
      · rename_i whole
        rw [slice_of_le (Nat.le_add_right _ _) (by omega), ok_bind,
          slice_of_le (Nat.le_add_right _ _) (by omega), ok_bind]
        apply induction
        · dsimp only
          omega
        · dsimp only
          omega

/-- A block is decoded unless its offset is at the end of the range. -/
theorem exists_decodeBlock_iff {self : SSTableReader} {blockIdx : Nat}
    {block : Bytes × Nat} (found : self.blockIndex[blockIdx]? = some block) :
    (∃ entries, self.decodeBlock blockIdx = .ok entries) ↔
      block.2 + 4 < 2 ^ 64 := by
  have blockAt : self.blockAt blockIdx = .ok block := by
    rw [SSTableReader.blockAt, found]
  obtain ⟨stop, blockEnd⟩ : ∃ stop, self.blockEnd blockIdx = .ok stop := by
    unfold SSTableReader.blockEnd
    split
    · rename_i inside
      rw [SSTableReader.blockAt, List.getElem?_eq_getElem inside]
      exact ⟨_, rfl⟩
    · exact ⟨_, rfl⟩
  unfold decodeBlock
  rw [blockAt, ok_bind, blockEnd]
  constructor
  · rintro ⟨entries, decoded⟩
    obtain ⟨dataStart, added, -⟩ :=
      bind_eq_ok_iff.mp (show addUsize block.2 4 >>= _ = _ from decoded)
    exact (addUsize_eq_ok_iff.mp added).1
  · intro small
    simp only [ok_bind, addUsize_of_lt small]
    split
    · exact ⟨[], rfl⟩
    · rename_i inside
      rw [not_or] at inside
      rw [slice_of_le (by omega) (by omega), ok_bind]
      exact exists_decodeLoop (Nat.zero_le _) (by omega)

/-! ## Queries -/

theorem startBlock_eq (self : SSTableReader) (stem : Bytes) :
    self.startBlock stem =
      searchBase self.blockIndex (fun block => compare block.1 stem) := by
  unfold startBlock searchBlock
  rcases binarySearchBy_cases self.blockIndex
    (fun block => compare block.1 stem) with result | result | result
  · rw [result]
  · rw [result]
    rfl
  · rw [result.1, result.2]

/-- The search for the empty key ends first. -/
theorem startBlock_nil_le (self : SSTableReader) (stem : Bytes)
    (nonempty : self.blockIndex ≠ []) :
    self.startBlock [] ≤ self.startBlock stem := by
  rw [startBlock_eq, startBlock_eq]
  refine searchBase_mono (fun block greater => ?_) nonempty
  rw [compare_eq_gt_iff] at greater ⊢
  cases key : block.1 with
  | nil =>
      rw [key] at greater
      exact absurd greater (List.not_lt_nil _)
  | cons first others => exact List.nil_lt_cons _ _

/-- The blocks from the one on which the search for nothing ends. -/
def searched (entries : List (Bytes × Nat)) : List (Bytes × Nat) :=
  entries.drop (searchBase entries (fun block => compare block.1 []))

theorem exists_scanBlocks {self : SSTableReader} {stem : Bytes}
    {start : Nat} {blocks : List Nat}
    (decodes : ∀ blockIdx ∈ blocks,
      ∃ entries, self.decodeBlock blockIdx = .ok entries)
    (results : List (Bytes × Bytes)) :
    ∃ all, self.scanBlocks stem start blocks results = .ok all := by
  induction blocks generalizing results with
  | nil => exact ⟨results, rfl⟩
  | cons blockIdx rest induction =>
      obtain ⟨first, others⟩ := List.forall_mem_cons.mp decodes
      obtain ⟨entries, decoded⟩ := first
      have found : ∃ block, self.blockAt blockIdx = .ok block := by
        obtain ⟨block, found, -⟩ := bind_eq_ok_iff.mp decoded
        exact ⟨block, found⟩
      obtain ⟨block, found⟩ := found
      rw [scanBlocks, found, ok_bind]
      dsimp only
      split
      · exact ⟨results, rfl⟩
      · rw [decoded, ok_bind]
        cases scanEntries stem entries results with
        | mk collected done =>
            cases done with
            | true => exact ⟨collected, rfl⟩
            | false => exact induction others collected

/-- A scan for everything passes no block over. -/
theorem decodeBlock_of_scanBlocks {self : SSTableReader} {start : Nat}
    {blocks : List Nat} {results all : List (Bytes × Bytes)}
    (scanned : self.scanBlocks [] start blocks results = .ok all) :
    ∀ blockIdx ∈ blocks,
      ∃ entries, self.decodeBlock blockIdx = .ok entries := by
  have endless : ∀ entries results,
      (scanEntries [] entries results).2 = false := by
    intro entries
    induction entries with
    | nil => intro results; rfl
    | cons entry rest induction =>
        intro results
        rw [scanEntries, if_pos (List.nil_prefix)]
        exact induction _
  induction blocks generalizing results with
  | nil => simp
  | cons blockIdx rest induction =>
      rw [scanBlocks, bind_eq_ok_iff] at scanned
      obtain ⟨block, -, scanned⟩ := scanned
      dsimp only at scanned
      rw [if_neg (fun both => both.2.1 List.nil_prefix),
        bind_eq_ok_iff] at scanned
      obtain ⟨entries, decoded, scanned⟩ := scanned
      have goesOn := endless entries results
      cases shape : scanEntries [] entries results with
      | mk collected done =>
          rw [shape] at scanned goesOn
          dsimp only at goesOn
          subst goesOn
          exact List.forall_mem_cons.mpr
            ⟨⟨entries, decoded⟩, induction scanned⟩

/-- A lookup decodes at most the block on which its search ends. -/
theorem exists_get (checksum : Checksum) {self : SSTableReader}
    {key : Bytes}
    (decodes : self.blockIndex ≠ [] →
      ∃ entries, self.decodeBlock (self.startBlock key) = .ok entries) :
    ∃ value, self.get checksum key = .ok value := by
  obtain ⟨answer, answered⟩ := self.exists_bloomMayContain checksum key
  have nonempty : self.searchBlock key ≠ .error 0 →
      self.blockIndex ≠ [] := by
    intro found empty
    apply found
    rw [searchBlock, empty]
    rfl
  unfold get
  rw [answered, ok_bind]
  cases answer with
  | false => exact ⟨none, rfl⟩
  | true =>
      rcases binarySearchBy_cases self.blockIndex
        (fun block => compare block.1 key) with result | result | result
      · replace result : self.searchBlock key =
            .ok (self.startBlock key) := by
          rw [startBlock_eq]
          exact result
        obtain ⟨entries, decoded⟩ := decodes (nonempty (by simp [result]))
        simp only [result, decoded]
        exact ⟨_, rfl⟩
      · replace result : self.searchBlock key =
            .error (self.startBlock key + 1) := by
          rw [startBlock_eq]
          exact result
        obtain ⟨entries, decoded⟩ := decodes (nonempty (by simp [result]))
        simp only [result, decoded]
        exact ⟨_, rfl⟩
      · have none : self.searchBlock key = .error 0 := result.1
        simp only [none]
        exact ⟨_, rfl⟩

/-- All queries return when the searched blocks have proper offsets. -/
theorem queries_iff (checksum : Checksum) (self : SSTableReader) :
    (∀ key, (∃ value, self.get checksum key = .ok value) ∧
      ∃ entries, self.scanPrefix key = .ok entries) ↔
      ∀ block ∈ searched self.blockIndex, block.2 + 4 < 2 ^ 64 := by
  constructor
  · intro queries block member
    obtain ⟨entries, scanned⟩ := (queries []).2
    rw [searched, ← startBlock_eq] at member
    obtain ⟨position, found⟩ := List.mem_iff_getElem?.mp member
    rw [List.getElem?_drop] at found
    have inside := (List.getElem?_eq_some_iff.mp found).1
    refine (exists_decodeBlock_iff found).mp
      (decodeBlock_of_scanBlocks scanned _ ?_)
    rw [List.mem_range'_1]
    omega
  · intro small key
    have decodes : ∀ blockIdx, self.startBlock [] ≤ blockIdx →
        blockIdx < self.blockIndex.length →
        ∃ entries, self.decodeBlock blockIdx = .ok entries := by
      intro blockIdx late inside
      have found := List.getElem?_eq_getElem inside
      refine (exists_decodeBlock_iff found).mpr (small _ ?_)
      rw [searched, ← startBlock_eq]
      refine List.mem_iff_getElem?.mpr ⟨blockIdx - self.startBlock [], ?_⟩
      rw [List.getElem?_drop, ← found]
      congr 1
      omega
    have found : self.blockIndex ≠ [] →
        ∃ entries, self.decodeBlock (self.startBlock key) =
          .ok entries := by
      intro nonempty
      refine decodes _ (self.startBlock_nil_le key nonempty) ?_
      rw [startBlock_eq]
      exact searchBase_lt nonempty
    constructor
    · exact exists_get checksum found
    · apply exists_scanBlocks
      intro blockIdx member
      rw [List.mem_range'_1] at member
      have nonempty : self.blockIndex ≠ [] := by
        intro empty
        rw [empty, List.length_nil] at member
        omega
      have early := self.startBlock_nil_le key nonempty
      exact decodes blockIdx (by omega) (by omega)

/-! ## Files -/

/-- The footer of a file which has room for one. -/
def footerOf (mmap : Bytes) : SSTableFooter :=
  SSTableFooter.readFromBytes (mmap.drop (mmap.length - FOOTER_SIZE))

/-- `bloom.len() * 8` does not overflow; lookups compute it. -/
def BitsFit (self : SSTableReader) : Prop :=
  self.bloom.length * 8 < 2 ^ 64

/-- Opening returns, and so do all queries to what has been opened. -/
def ReadsSafely (checksum : Checksum) (mmap : Bytes) : Prop :=
  ∃ outcome, openTable mmap = .ok outcome ∧
    ∀ reader, outcome = .ok reader →
      reader.BitsFit ∧
        ∀ key, (∃ value, reader.get checksum key = .ok value) ∧
          ∃ entries, reader.scanPrefix key = .ok entries

/-- The number of bytes between the size of the filter and the footer. -/
def filterSize (mmap : Bytes) : Nat :=
  mmap.length - FOOTER_SIZE - ((footerOf mmap).bloomOffset.toNat + 4)

/--
The offset of the filter is not at the end of the range and its bits can be
counted, no key length of the index is cut off by the end of the file, and
the offsets of the blocks which a search can reach are not at the end of the
range either.
-/
structure Sound (mmap : Bytes) : Prop where
  filter : (footerOf mmap).bloomOffset.toNat + 4 < 2 ^ 64
  bits : filterSize mmap < 2 ^ 61
  lengths : ∀ entries pos,
    WholeEntries mmap (footerOf mmap).bloomOffset.toNat
      (footerOf mmap).indexOffset.toNat entries pos →
    pos + 2 ≤ (footerOf mmap).bloomOffset.toNat →
    pos + 2 ≤ mmap.length
  offsets : ∀ entries pos,
    WholeEntries mmap (footerOf mmap).bloomOffset.toNat
      (footerOf mmap).indexOffset.toNat entries pos →
    ¬ WholeAt mmap (footerOf mmap).bloomOffset.toNat pos →
    ∀ block ∈ searched entries, block.2 + 4 < 2 ^ 64

/-- The block index which opening reads. -/
def indexOf (mmap : Bytes) : Checked (List (Bytes × Nat)) :=
  parseIndex mmap (footerOf mmap).bloomOffset.toNat
    ((footerOf mmap).bloomOffset.toNat -
      (footerOf mmap).indexOffset.toNat + 1)
    (footerOf mmap).indexOffset.toNat []

section Files

variable {mmap : Bytes} (large : ¬ mmap.length < FOOTER_SIZE)

include large

/-- Opening is reading the index and skipping the size of the filter. -/
theorem openTable_of_indexOf
    (filter : (footerOf mmap).bloomOffset.toNat + 4 < 2 ^ 64)
    {blockIndex : List (Bytes × Nat)}
    (parsed : indexOf mmap = .ok blockIndex) :
    ∃ bloom, bloom.length = filterSize mmap ∧
      openTable mmap =
        .ok (.ok ⟨mmap, footerOf mmap, blockIndex, bloom⟩) := by
  have footer := sliceFrom_of_le
    (show mmap.length - FOOTER_SIZE ≤ mmap.length by omega)
  have same : SSTableFooter.readFromBytes
      (mmap.drop (mmap.length - FOOTER_SIZE)) = footerOf mmap :=
    rfl
  rw [indexOf] at parsed
  simp only [openTable, if_neg large, footer, ok_bind, same, parsed,
    addUsize_of_lt filter]
  split
  · rw [slice_of_le (by omega) (by omega)]
    refine ⟨_, ?_, rfl⟩
    rw [List.length_drop, List.length_take, filterSize]
    omega
  · refine ⟨[], ?_, rfl⟩
    rw [List.length_nil, filterSize]
    omega

theorem indexOf_of_openTable {outcome : Except SstError SSTableReader}
    (opened : openTable mmap = .ok outcome) :
    (footerOf mmap).bloomOffset.toNat + 4 < 2 ^ 64 ∧
      ∃ blockIndex, indexOf mmap = .ok blockIndex := by
  have footer := sliceFrom_of_le
    (show mmap.length - FOOTER_SIZE ≤ mmap.length by omega)
  have same : SSTableFooter.readFromBytes
      (mmap.drop (mmap.length - FOOTER_SIZE)) = footerOf mmap :=
    rfl
  simp only [openTable, if_neg large, footer, ok_bind, same] at opened
  obtain ⟨blockIndex, parsed, opened⟩ := bind_eq_ok_iff.mp opened
  obtain ⟨start, added, -⟩ := bind_eq_ok_iff.mp opened
  exact ⟨(addUsize_eq_ok_iff.mp added).1, blockIndex, parsed⟩

end Files

section Index

variable {mmap : Bytes} (mapped : mmap.length < 2 ^ 63)
  {entries : List (Bytes × Nat)} {stop : Nat}
  (whole : WholeEntries mmap (footerOf mmap).bloomOffset.toNat
    (footerOf mmap).indexOffset.toNat entries stop)

include mapped whole

/-- Opening passes all whole entries at the front of the index. -/
theorem indexOf_eq_parseIndex :
    ∃ rounds, indexOf mmap =
      parseIndex mmap (footerOf mmap).bloomOffset.toNat (rounds + 1) stop
        entries := by
  have few := whole.length_le
  refine ⟨(footerOf mmap).bloomOffset.toNat -
    (footerOf mmap).indexOffset.toNat - entries.length, ?_⟩
  have rounds : (footerOf mmap).bloomOffset.toNat -
      (footerOf mmap).indexOffset.toNat + 1 =
      entries.length + ((footerOf mmap).bloomOffset.toNat -
        (footerOf mmap).indexOffset.toNat - entries.length + 1) := by
    omega
  rw [indexOf, rounds, parseIndex_wholeEntries mapped whole,
    List.nil_append]

/-- The index is read when the length behind its entries is not cut off. -/
theorem indexOf_of_readable
    (filter : (footerOf mmap).bloomOffset.toNat + 4 < 2 ^ 64)
    (ends : ¬ WholeAt mmap (footerOf mmap).bloomOffset.toNat stop)
    (readable : stop + 2 ≤ (footerOf mmap).bloomOffset.toNat →
      stop + 2 ≤ mmap.length) :
    indexOf mmap = .ok entries := by
  obtain ⟨rounds, reached⟩ := indexOf_eq_parseIndex mapped whole
  rw [reached]
  exact parseIndex_stop mapped filter ends readable rounds entries

theorem readable_of_indexOf {blockIndex : List (Bytes × Nat)}
    (parsed : indexOf mmap = .ok blockIndex)
    (starts : stop + 2 ≤ (footerOf mmap).bloomOffset.toNat) :
    stop + 2 ≤ mmap.length := by
  obtain ⟨rounds, reached⟩ := indexOf_eq_parseIndex mapped whole
  by_contra cut
  rw [reached] at parsed
  exact parseIndex_cut starts (Nat.lt_of_not_le cut) rounds entries
    ⟨blockIndex, parsed⟩

end Index

/-- Reading a file is safe exactly when it is too short or sound. -/
theorem readsSafely_iff_sound (checksum : Checksum) {mmap : Bytes}
    (mapped : mmap.length < 2 ^ 63) :
    ReadsSafely checksum mmap ↔
      mmap.length < FOOTER_SIZE ∨ Sound mmap := by
  by_cases large : mmap.length < FOOTER_SIZE
  · refine iff_of_true ⟨_, if_pos large, ?_⟩ (Or.inl large)
    intro reader impossible
    cases impossible
  constructor
  · rintro ⟨outcome, opened, queries⟩
    obtain ⟨filter, blockIndex, parsed⟩ := indexOf_of_openTable large opened
    refine Or.inr ⟨filter, ?_, fun entries pos whole =>
      readable_of_indexOf mapped whole parsed, ?_⟩
    · obtain ⟨bloom, length, again⟩ :=
        openTable_of_indexOf large filter parsed
      rw [opened, Except.ok.injEq] at again
      have bits : bloom.length * 8 < 2 ^ 64 := (queries _ again).1
      omega
    · intro entries pos whole ends
      have readable := readable_of_indexOf mapped whole parsed
      obtain ⟨bloom, -, again⟩ := openTable_of_indexOf large filter
        (indexOf_of_readable mapped whole filter ends readable)
      rw [opened, Except.ok.injEq] at again
      exact (queries_iff checksum _).mp (queries _ again).2
  · rintro (small | sound)
    · exact absurd small large
    obtain ⟨entries, stop, whole, ends⟩ := exists_wholeEntries mmap
      (footerOf mmap).bloomOffset.toNat (footerOf mmap).indexOffset.toNat
    obtain ⟨bloom, length, opened⟩ := openTable_of_indexOf large
      sound.filter (indexOf_of_readable mapped whole sound.filter ends
        (sound.lengths entries stop whole))
    refine ⟨_, opened, ?_⟩
    rintro reader same
    cases same
    constructor
    · show bloom.length * 8 < 2 ^ 64
      have bits := sound.bits
      omega
    · exact (queries_iff checksum _).mpr
        (sound.offsets entries stop whole ends)

/-- A footer of zero bytes alone. -/
theorem readsSafely_iff_sound_zeros :
    ReadsSafely crc32 (List.replicate 48 0) := by
  have index : (footerOf (List.replicate 48 0)).indexOffset.toNat = 0 := by
    decide
  have filter : (footerOf (List.replicate 48 0)).bloomOffset.toNat = 0 := by
    decide
  refine (readsSafely_iff_sound crc32 (by decide)).mpr
    (Or.inr ⟨?_, ?_, ?_, ?_⟩)
  · rw [filter]
    decide
  · rw [filterSize, filter]
    decide
  · intro entries pos whole starts
    rw [filter] at starts
    omega
  · intro entries pos whole ends block member
    rw [index, filter] at whole
    cases whole with
    | nil => cases member
    | cons starts others =>
        have before := starts.1
        omega

/-- A filter offset at the end of the range, and an index behind the file. -/
theorem damaged_panics :
    openTable (List.replicate 48 255) = .error .overflow ∧
      ¬ ReadsSafely crc32 (List.replicate 48 255) ∧
      openTable (leBytes 8 48 ++ leBytes 8 50 ++ List.replicate 32 0) =
        .error .sliceIndex ∧
      ¬ ReadsSafely crc32
        (leBytes 8 48 ++ leBytes 8 50 ++ List.replicate 32 0) := by
  have overflows : openTable (List.replicate 48 255) =
      .error .overflow :=
    rfl
  have outside : openTable
      (leBytes 8 48 ++ leBytes 8 50 ++ List.replicate 32 0) =
        .error .sliceIndex :=
    rfl
  refine ⟨overflows, ?_, outside, ?_⟩
  · rintro ⟨outcome, opened, -⟩
    rw [overflows] at opened
    cases opened
  · rintro ⟨outcome, opened, -⟩
    rw [outside] at opened
    cases opened

end SSTableReader

end Cdoc.Sst
