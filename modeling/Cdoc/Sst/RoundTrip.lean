import Cdoc.Foundation.SortedMap
import Cdoc.Sst.Size

/-!
# Queries on a written table

For entries in strictly increasing key order, the last block whose first key
is not above a key is the only one which can hold it, and the two early
exits of a scan are taken only behind every key with the prefix.  A lookup
therefore is the lookup in the list of entries, and a scan is its filter.
-/

namespace Cdoc.Sst

open Cdoc.Foundation

/-! ## Lookups in concatenated lists -/

theorem lookup_append (key : Bytes) (left right : List (Bytes × Bytes)) :
    lookup key (left ++ right) =
      (lookup key left).or (lookup key right) := by
  induction left with
  | nil => rfl
  | cons head tail induction =>
      rw [List.cons_append, lookup_cons, lookup_cons, induction]
      split
      · rfl
      · rfl

theorem find?_eq_lookup (key : Bytes) (entries : List (Bytes × Bytes)) :
    (entries.find? (fun entry => entry.1 == key)).map Prod.snd =
      lookup key entries := by
  induction entries with
  | nil => rfl
  | cons head tail induction =>
      rw [List.find?_cons, lookup_cons, ← induction]
      by_cases same : head.1 = key
      · simp [same]
      · simp [same, beq_eq_false_iff_ne.mpr same]

/-! ## The order of blocks -/

section Blocks

variable {blocks : List (List (Bytes × Bytes))}

/-- No key of a block is below its first key. -/
theorem firstKey_le {block : List (Bytes × Bytes)}
    (increasing : Increasing block) {entry : Bytes × Bytes}
    (member : entry ∈ block) : ¬ entry.1 < firstKey block := by
  cases block with
  | nil => cases member
  | cons head tail =>
      rcases List.pairwise_cons.mp increasing with ⟨below, -⟩
      rcases List.mem_cons.mp member with rfl | inTail
      · exact lt_irrefl _
      · exact lt_asymm (below entry inTail)

theorem firstKey_flatten {block : List (Bytes × Bytes)}
    (others : List (List (Bytes × Bytes))) (nonempty : block ≠ []) :
    firstKey (block :: others).flatten = firstKey block := by
  cases block with
  | nil => exact absurd rfl nonempty
  | cons head tail => rfl

theorem increasing_block (increasing : Increasing blocks.flatten)
    {block : List (Bytes × Bytes)} (member : block ∈ blocks) :
    Increasing block :=
  (List.pairwise_flatten.mp increasing).1 block member

/-- The keys of one block are below those of a later one. -/
theorem block_lt_block (increasing : Increasing blocks.flatten) :
    blocks.Pairwise fun left right =>
      ∀ first ∈ left, ∀ second ∈ right, first.1 < second.1 :=
  (List.pairwise_flatten.mp increasing).2

theorem firstKey_lt_firstKey {left right : List (Bytes × Bytes)}
    (before : ∀ first ∈ left, ∀ second ∈ right, first.1 < second.1)
    (leftNonempty : left ≠ []) (rightNonempty : right ≠ []) :
    firstKey left < firstKey right := by
  rcases firstKey_mem leftNonempty with ⟨leftValue, inLeft⟩
  rcases firstKey_mem rightNonempty with ⟨rightValue, inRight⟩
  exact before _ inLeft _ inRight

/-- The blocks whose first key is not above a key come first. -/
theorem split_at_key (increasing : Increasing blocks.flatten)
    (nonempty : ∀ block ∈ blocks, block ≠ []) (key : Bytes) :
    ∃ low high, blocks = low ++ high ∧
      (∀ block ∈ low, ¬ key < firstKey block) ∧
      (∀ block ∈ high, key < firstKey block) := by
  induction blocks with
  | nil => exact ⟨[], [], rfl, by simp, by simp⟩
  | cons head tail induction =>
      rcases List.pairwise_cons.mp (block_lt_block increasing) with
        ⟨headBefore, -⟩
      have tailIncreasing : Increasing tail.flatten := by
        rw [List.flatten_cons] at increasing
        exact (List.pairwise_append.mp increasing).2.1
      have tailNonempty : ∀ block ∈ tail, block ≠ [] :=
        fun block member => nonempty block (List.mem_cons_of_mem _ member)
      have headNonempty := nonempty head List.mem_cons_self
      by_cases above : key < firstKey head
      · refine ⟨[], head :: tail, rfl, by simp, ?_⟩
        intro block member
        rcases List.mem_cons.mp member with rfl | inTail
        · exact above
        · exact above.trans (firstKey_lt_firstKey
            (headBefore block inTail) headNonempty
            (tailNonempty block inTail))
      · rcases induction tailIncreasing tailNonempty with
          ⟨low, high, split, lowBelow, highAbove⟩
        refine ⟨head :: low, high, by rw [split]; rfl, ?_, highAbove⟩
        intro block member
        rcases List.mem_cons.mp member with rfl | inLow
        · exact above
        · exact lowBelow block inLow

/-- The search of the reader stops between the two groups of blocks. -/
theorem greaterFrom_blockOffsets (checksum : Checksum) {key : Bytes}
    {low high : List (List (Bytes × Bytes))}
    (lowBelow : ∀ block ∈ low, ¬ key < firstKey block)
    (highAbove : ∀ block ∈ high, key < firstKey block) :
    GreaterFrom (blockOffsets checksum 0 (low ++ high))
      (fun block => compare block.1 key) low.length := by
  constructor
  · rw [length_blockOffsets, List.length_append]
    exact Nat.le_add_right _ _
  · rintro position ⟨first, offset⟩ found
    show compare first key = Ordering.gt ↔ low.length ≤ position
    rw [compare_eq_gt_iff]
    rw [blockOffsets_append] at found
    by_cases inLow : position < low.length
    · rw [List.getElem?_append_left
        (by rw [length_blockOffsets]; exact inLow)] at found
      rcases mem_blockOffsets (List.mem_of_getElem? found) with
        ⟨⟨block, member, rfl⟩, -⟩
      exact ⟨fun above => absurd above (lowBelow block member),
        fun beyond => absurd inLow (Nat.not_lt.mpr beyond)⟩
    · rw [List.getElem?_append_right
        (by rw [length_blockOffsets]; omega)] at found
      rcases mem_blockOffsets (List.mem_of_getElem? found) with
        ⟨⟨block, member, rfl⟩, -⟩
      exact ⟨fun _ => Nat.not_lt.mp inLow,
        fun _ => highAbove block member⟩

end Blocks

/-! ## Lookups -/

section Queries

variable {checksum : Checksum} {minTs maxTs : Timestamp}
variable {entries : List (Bytes × Bytes)} {bytes : Bytes}
variable {blocks : List (List (Bytes × Bytes))} {footer : SSTableFooter}

/-- No block above a key holds it. -/
theorem lookup_high {key : Bytes}
    {high : List (List (Bytes × Bytes))}
    (increasing : Increasing high.flatten)
    (highAbove : ∀ block ∈ high, key < firstKey block) :
    lookup key high.flatten = none := by
  rw [lookup_eq_none_iff]
  intro entry member same
  rcases List.mem_flatten.mp member with ⟨block, inHigh, inBlock⟩
  apply firstKey_le (increasing_block increasing inHigh) inBlock
  rw [same]
  exact highAbove block inHigh

/-- Only the last block which is not above a key can hold it. -/
theorem lookup_flatten_split {key : Bytes}
    {left high : List (List (Bytes × Bytes))}
    {block : List (Bytes × Bytes)}
    (increasing : Increasing ((left ++ [block]) ++ high).flatten)
    (nonempty : block ≠ [])
    (lowBelow : ¬ key < firstKey block)
    (highAbove : ∀ block ∈ high, key < firstKey block) :
    lookup key ((left ++ [block]) ++ high).flatten =
      lookup key block := by
  rw [List.flatten_append, List.flatten_append, List.flatten_singleton]
    at increasing ⊢
  rcases List.pairwise_append.mp increasing with
    ⟨lowIncreasing, highIncreasing, -⟩
  rcases List.pairwise_append.mp lowIncreasing with
    ⟨-, -, leftBefore⟩
  rcases firstKey_mem nonempty with ⟨value, firstIn⟩
  have noLeft : lookup key left.flatten = none := by
    rw [lookup_eq_none_iff]
    intro entry member same
    apply lowBelow
    rw [← same]
    exact leftBefore entry member _ firstIn
  rw [lookup_append, lookup_append, noLeft,
    lookup_high highIncreasing highAbove, Option.none_or,
    Option.or_none]

/-- The search of the reader counts the blocks which are not above a key. -/
theorem searchBlock_spec (checksum : Checksum)
    (entries : List (Bytes × Bytes)) (bytes : Bytes)
    (footer : SSTableFooter) {key : Bytes}
    {low high : List (List (Bytes × Bytes))}
    (split : blocks = low ++ high)
    (lowBelow : ∀ block ∈ low, ¬ key < firstKey block)
    (highAbove : ∀ block ∈ high, key < firstKey block) :
    match (tableReader checksum entries bytes blocks footer).searchBlock
      key with
    | .ok position => position + 1 = low.length
    | .error position => position = low.length := by
  have greater := greaterFrom_blockOffsets checksum lowBelow highAbove
  rw [← split] at greater
  exact binarySearchBy_spec greater

/-- The only block which is searched decides about the key. -/
theorem IsTable.find_in_block
    (table : IsTable checksum minTs maxTs entries bytes blocks footer)
    (fits : ∀ entry ∈ entries, Fits entry)
    (increasing : Increasing blocks.flatten) {key : Bytes}
    {low high : List (List (Bytes × Bytes))}
    (split : blocks = low ++ high)
    (lowBelow : ∀ block ∈ low, ¬ key < firstKey block)
    (highAbove : ∀ block ∈ high, key < firstKey block)
    {position : Nat} (last : position + 1 = low.length) :
    ∃ block,
      (tableReader checksum entries bytes blocks footer).decodeBlock
          position = .ok block ∧
        lookup key blocks.flatten = lookup key block := by
  rcases List.eq_nil_or_concat low with rfl | ⟨left, block, rfl⟩
  · cases last
  · rw [List.concat_eq_append] at split lowBelow last
    rw [List.length_append, List.length_singleton] at last
    have here : position = left.length := Nat.succ.inj last
    have around : blocks = left ++ block :: high := by
      rw [split, List.append_assoc]
      rfl
    have nonempty : block ≠ [] :=
      table.nonempty block (by simp [around])
    refine ⟨block, ?_, ?_⟩
    · rw [here]
      exact table.decodeBlock fits around
    · rw [split] at increasing ⊢
      exact lookup_flatten_split increasing nonempty
        (lowBelow block (by simp)) highAbove

/-- A lookup in the reader is the lookup in the list of entries. -/
theorem IsTable.get
    (table : IsTable checksum minTs maxTs entries bytes blocks footer)
    (fits : ∀ entry ∈ entries, Fits entry)
    (increasing : Increasing entries) (key : Bytes) :
    (tableReader checksum entries bytes blocks footer).get checksum key =
      .ok (lookup key entries) := by
  have filter :
      (tableReader checksum entries bytes blocks footer).bloom =
        buildBloom checksum (entries.map Prod.fst) := rfl
  rcases bloomMayContain_spec filter key with
    ⟨answer, checked, complete⟩
  unfold SSTableReader.get
  rw [checked, ok_bind]
  cases answer with
  | false =>
      have absent : lookup key entries = none := by
        rw [lookup_eq_none_iff]
        intro entry member same
        have present : key ∈ entries.map Prod.fst :=
          List.mem_map.mpr ⟨entry, member, same⟩
        cases complete present
      rw [absent]
      rfl
  | true =>
      have flattened := table.flatten
      rw [← flattened] at increasing
      rcases split_at_key increasing table.nonempty key with
        ⟨low, high, split, lowBelow, highAbove⟩
      have searched := searchBlock_spec checksum entries bytes footer
        split lowBelow highAbove
      have found (position : Nat) (last : position + 1 = low.length) :
          ((tableReader checksum entries bytes blocks footer).decodeBlock
            position >>= fun block => pure
              ((block.find? (fun entry => entry.1 == key)).map
                Prod.snd)) = .ok (lookup key entries) := by
        rcases table.find_in_block fits increasing split lowBelow
          highAbove last with ⟨block, decoded, same⟩
        rw [decoded, ok_bind, find?_eq_lookup, ← same, flattened]
        rfl
      generalize (tableReader checksum entries bytes blocks
        footer).searchBlock key = result at searched ⊢
      rcases result with (_ | position) | position
      · have none_low : low = [] :=
          List.length_eq_zero_iff.mp searched.symm
        rw [none_low, List.nil_append] at split
        subst split
        rw [← flattened, lookup_high increasing highAbove]
        rfl
      · exact found position searched
      · exact found position searched

/-! ## Scans -/

/-- Nothing from a key beyond the prefix on starts with it. -/
theorem pastPrefix_spec {stem past key : Bytes}
    (beyond : SSTableReader.pastPrefix stem past = true)
    (later : ¬ key < past) : ¬ stem <+: key := by
  intro starts
  rw [prefixSuccessor_range] at starts
  unfold SSTableReader.pastPrefix at beyond
  rw [Bool.and_eq_true] at beyond
  rcases beyond with ⟨-, limit⟩
  split at limit
  · rename_i upper successor
    have above : ¬ past < upper := of_decide_eq_true limit
    have below : key < upper := starts.2 upper successor
    exact later (below.trans_le (not_lt.mp above))
  · cases limit

/-- No entry from a key beyond the prefix on is selected. -/
theorem startingWith_pastPrefix {stem past : Bytes}
    {entries : List (Bytes × Bytes)}
    (beyond : SSTableReader.pastPrefix stem past = true)
    (later : ∀ entry ∈ entries, ¬ entry.1 < past) :
    startingWith stem entries = [] :=
  startingWith_eq_nil fun entry member =>
    pastPrefix_spec beyond (later entry member)

/--
The inner loop selects by prefix, and it asks to stop only behind a key
beyond which nothing is selected.
-/
theorem scanEntries_spec (stem : Bytes) {entries : List (Bytes × Bytes)}
    (increasing : Increasing entries) (results : List (Bytes × Bytes)) :
    ∃ stop, SSTableReader.scanEntries stem entries results =
        (results ++ startingWith stem entries, stop) ∧
      (stop = true → ∃ past ∈ entries,
        SSTableReader.pastPrefix stem past.1 = true) := by
  induction entries generalizing results with
  | nil => exact ⟨false, by simp [SSTableReader.scanEntries], by simp⟩
  | cons head tail induction =>
      rcases head with ⟨key, value⟩
      rcases List.pairwise_cons.mp increasing with ⟨below, tailIncreasing⟩
      rw [SSTableReader.scanEntries]
      by_cases starts : stem <+: key
      · rcases induction tailIncreasing (results ++ [(key, value)]) with
          ⟨stop, scanned, reason⟩
        refine ⟨stop, ?_, ?_⟩
        · rw [if_pos starts, scanned,
            startingWith_cons_of_isPrefix starts, List.append_assoc]
          rfl
        · intro stopped
          rcases reason stopped with ⟨past, member, beyond⟩
          exact ⟨past, List.mem_cons_of_mem _ member, beyond⟩
      · rw [if_neg starts, startingWith_cons_of_not_isPrefix starts]
        by_cases beyond : SSTableReader.pastPrefix stem key = true
        · refine ⟨true, ?_, fun _ =>
            ⟨(key, value), List.mem_cons_self, beyond⟩⟩
          rw [if_pos beyond, startingWith_pastPrefix beyond, List.append_nil]
          intro entry member
          exact lt_asymm (below entry member)
        · rcases induction tailIncreasing results with
            ⟨stop, scanned, reason⟩
          refine ⟨stop, by rw [if_neg beyond, scanned], ?_⟩
          intro stopped
          rcases reason stopped with ⟨past, member, beyond⟩
          exact ⟨past, List.mem_cons_of_mem _ member, beyond⟩

/-- The outer loop over the blocks behind the first `left`. -/
theorem IsTable.scanBlocks
    (table : IsTable checksum minTs maxTs entries bytes blocks footer)
    (fits : ∀ entry ∈ entries, Fits entry)
    (increasing : Increasing blocks.flatten) (stem : Bytes)
    (startBlock : Nat) {left right : List (List (Bytes × Bytes))}
    (split : blocks = left ++ right) (results : List (Bytes × Bytes)) :
    (tableReader checksum entries bytes blocks footer).scanBlocks stem
        startBlock (List.range' left.length right.length) results =
      .ok (results ++ startingWith stem right.flatten) := by
  induction right generalizing left results with
  | nil => simp [SSTableReader.scanBlocks]
  | cons block right induction =>
      have nextSplit : blocks = (left ++ [block]) ++ right := by
        rw [split, List.append_assoc]
        rfl
      have restIncreasing : Increasing (block :: right).flatten := by
        rw [split, List.flatten_append] at increasing
        exact (List.pairwise_append.mp increasing).2.1
      rw [List.length_cons, List.range'_succ, SSTableReader.scanBlocks,
        tableReader_blockAt checksum entries bytes footer split, ok_bind]
      dsimp only
      split
      · -- the early exit at the first key of a block
        rename_i outside
        have first := firstKey_flatten right
          (table.nonempty block (by simp [split]))
        have none_left := startingWith_pastPrefix outside.2.2
          (fun entry member => first ▸ firstKey_le restIncreasing member)
        rw [none_left, List.append_nil]
        rfl
      · rcases scanEntries_spec stem
          (increasing_block increasing (show block ∈ blocks by
            simp [split])) results with ⟨stop, scanned, reason⟩
        rw [table.decodeBlock fits split, ok_bind, scanned]
        rw [List.flatten_cons] at restIncreasing
        rw [List.flatten_cons, startingWith_append, ← List.append_assoc]
        cases stop with
        | true =>
            rcases reason rfl with ⟨past, inBlock, beyond⟩
            have none_later := startingWith_pastPrefix beyond
              (fun entry member => lt_asymm
                ((List.pairwise_append.mp restIncreasing).2.2 past inBlock
                  entry member))
            rw [none_later, List.append_nil]
            rfl
        | false =>
            have next := induction nextSplit
              (results ++ startingWith stem block)
            rw [List.length_append, List.length_singleton] at next
            exact next

/-- The blocks before the last one which is not above a prefix. -/
theorem startingWith_before {stem : Bytes}
    {left high : List (List (Bytes × Bytes))}
    {block : List (Bytes × Bytes)}
    (increasing : Increasing ((left ++ [block]) ++ high).flatten)
    (nonempty : block ≠ []) (below : ¬ stem < firstKey block) :
    startingWith stem left.flatten = [] := by
  apply startingWith_eq_nil
  intro entry member starts
  rw [List.flatten_append, List.flatten_append, List.flatten_singleton]
    at increasing
  rcases List.pairwise_append.mp increasing with ⟨lowIncreasing, -, -⟩
  rcases List.pairwise_append.mp lowIncreasing with ⟨-, -, before⟩
  rcases firstKey_mem nonempty with ⟨value, firstIn⟩
  have less : entry.1 < firstKey block := before entry member _ firstIn
  exact (prefixSuccessor_range stem entry.1).mp starts |>.1
    (less.trans_le (not_lt.mp below))

/-- A scan of the reader selects the entries by prefix. -/
theorem IsTable.scanPrefix
    (table : IsTable checksum minTs maxTs entries bytes blocks footer)
    (fits : ∀ entry ∈ entries, Fits entry)
    (increasing : Increasing entries) (stem : Bytes) :
    (tableReader checksum entries bytes blocks footer).scanPrefix stem =
      .ok (startingWith stem entries) := by
  have flattened := table.flatten
  rw [← flattened] at increasing
  rcases split_at_key increasing table.nonempty stem with
    ⟨low, high, split, lowBelow, highAbove⟩
  have searched := searchBlock_spec checksum entries bytes footer split
    lowBelow highAbove
  have start : (tableReader checksum entries bytes blocks
      footer).startBlock stem = low.length - 1 := by
    unfold SSTableReader.startBlock
    generalize (tableReader checksum entries bytes blocks
      footer).searchBlock stem = result at searched ⊢
    cases result with
    | ok position => exact Nat.eq_sub_of_add_eq searched
    | error position => exact congrArg (· - 1) searched
  have count : (tableReader checksum entries bytes blocks
      footer).blockIndex.length = blocks.length :=
    length_blockOffsets checksum 0 blocks
  unfold SSTableReader.scanPrefix
  simp only [start, count]
  rcases List.eq_nil_or_concat low with rfl | ⟨left, block, rfl⟩
  · have scanned := table.scanBlocks fits increasing stem 0
      (List.nil_append blocks).symm []
    rw [flattened] at scanned
    exact scanned
  · rw [List.concat_eq_append] at split lowBelow ⊢
    have around : blocks = left ++ (block :: high) := by
      rw [split, List.append_assoc]
      rfl
    have before : startingWith stem left.flatten = [] := by
      rw [split] at increasing
      exact startingWith_before increasing
        (table.nonempty block (by simp [around]))
        (lowBelow block (by simp))
    have remaining : blocks.length - left.length =
        (block :: high).length := by
      rw [around, List.length_append, Nat.add_sub_cancel_left]
    have scanned := table.scanBlocks fits increasing stem left.length
      around []
    rw [List.length_append, List.length_singleton, Nat.add_sub_cancel,
      remaining, scanned, ← flattened, around, List.flatten_append,
      startingWith_append, before]

end Queries

/-! ## Written tables -/

/-- A reader which answers like the given list of entries. -/
structure Answers (checksum : Checksum) (reader : SSTableReader)
    (entries : List (Bytes × Bytes)) : Prop where
  get : ∀ key, reader.get checksum key = .ok (lookup key entries)
  scanPrefix : ∀ stem,
    reader.scanPrefix stem = .ok (startingWith stem entries)

theorem answers_of_written {checksum : Checksum} {minTs maxTs : Timestamp}
    {entries : List (Bytes × Bytes)} {bytes : Bytes}
    (increasing : Increasing entries)
    (fits : ∀ entry ∈ entries, Fits entry)
    (written : writeTable checksum minTs maxTs entries = .ok bytes) :
    ∃ reader, SSTableReader.openTable bytes = .ok (.ok reader) ∧
      Answers checksum reader entries := by
  rcases writeTable_eq_ok fits written with ⟨blocks, footer, table⟩
  exact ⟨tableReader checksum entries bytes blocks footer,
    table.openTable fits, table.get fits increasing,
    table.scanPrefix fits increasing⟩

/--
The round trip of a table.  The checksum, and with it the hash functions of
the filter, is arbitrary.
-/
theorem writeTable_roundTrip (checksum : Checksum)
    (minTs maxTs : Timestamp) {entries : List (Bytes × Bytes)}
    (increasing : Increasing entries)
    (fits : ∀ entry ∈ entries, Fits entry) :
    (tableBound entries < 2 ^ 63 →
      ∃ bytes, writeTable checksum minTs maxTs entries = .ok bytes) ∧
    ∀ bytes, writeTable checksum minTs maxTs entries = .ok bytes →
      ∃ reader, SSTableReader.openTable bytes = .ok (.ok reader) ∧
        (∀ key, reader.get checksum key = .ok (lookup key entries)) ∧
        ∀ stem, reader.scanPrefix stem =
          .ok (entries.filter
            fun entry => decide (stem <+: entry.1)) := by
  constructor
  · exact writeTable_of_small checksum minTs maxTs fits
  · intro bytes written
    rcases answers_of_written increasing fits written with
      ⟨reader, opened, answers⟩
    exact ⟨reader, opened, answers.get, answers.scanPrefix⟩

theorem writeTable_roundTrip_small :
    ∃ bytes reader,
      writeTable crc32 ⟨5⟩ ⟨9⟩ [([], [1]), ([0x61, 0xff], [])] =
        .ok bytes ∧
      SSTableReader.openTable bytes = .ok (.ok reader) ∧
      reader.get crc32 [0x61, 0xff] = .ok (some []) ∧
      reader.get crc32 [0x61] = .ok none ∧
      reader.scanPrefix [0x61, 0xff] = .ok [([0x61, 0xff], [])] := by
  have roundTrip := writeTable_roundTrip crc32 ⟨5⟩ ⟨9⟩
    (show Increasing [([], [1]), ([0x61, 0xff], [])] by
      unfold Increasing; decide)
    (by decide)
  rcases roundTrip.1 (by decide) with ⟨bytes, written⟩
  rcases roundTrip.2 bytes written with ⟨reader, opened, get, scan⟩
  exact ⟨bytes, reader, written, opened, get _, get _, scan _⟩

end Cdoc.Sst
