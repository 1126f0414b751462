import Cdoc.WalLaw

/-!
# Frames

`frame` is the shape of what `replay` takes for a record: the header with
the two lengths and the commit bit, the bytes which it announces, and their
checksum.  The header itself is not covered by the checksum, and a value
behind an empty key is not read from the file.

From any bytes at all the loop reads frames.  What was written is read back,
and the bytes behind it change the result only if they begin with frames up
to one which commits.
-/

namespace Cdoc

open Cdoc.Foundation

namespace WalRecord

/-- The lengths in front of a record. -/
def header (record : WalRecord) : Bytes :=
  leBytes 2 record.keyLen.toNat ++
    leBytes 2 (UInt16.ofNat record.value.length).toNat

/-- What the checksum of a record is taken of. -/
def hashed (record : WalRecord) : Bytes :=
  record.key ++ record.value ++ record.timestampBytes

/-- The bytes read as a record; a value behind no key is not among them. -/
def frame (checksum : Checksum) (rollingCrc : UInt32)
    (record : WalRecord) : Bytes :=
  record.header ++
    ((if record.key = [] then record.timestampBytes else record.hashed) ++
      leBytes 4 (record.crc checksum rollingCrc).toNat)

/-- The lengths which a header can hold. -/
structure Readable (record : WalRecord) : Prop where
  key_lt : record.key.length < 2 ^ 15
  value_lt : record.value.length < 2 ^ 16

theorem Valid.readable {record : WalRecord} (valid : record.Valid) :
    record.Readable :=
  ⟨valid.key_lt, valid.value_lt⟩

@[simp]
theorem length_header (record : WalRecord) : record.header.length = 4 := by
  simp [header]

theorem bytes_eq_header_append (checksum : Checksum) (rollingCrc : UInt32)
    (record : WalRecord) :
    record.bytes checksum rollingCrc =
      record.header ++ (record.hashed ++
        leBytes 4 (record.crc checksum rollingCrc).toNat) := by
  simp only [bytes, header, hashed, List.append_assoc]

theorem frame_eq_bytes (checksum : Checksum) (rollingCrc : UInt32)
    {record : WalRecord} (valid : record.Valid) :
    record.frame checksum rollingCrc =
      record.bytes checksum rollingCrc := by
  rw [bytes_eq_header_append, frame]
  rcases valid with ⟨positive, -⟩ | ⟨emptyKey, emptyValue⟩
  · rw [if_neg (List.ne_nil_of_length_pos positive)]
  · simp [hashed, emptyKey, emptyValue]

theorem eight_le_length_frame (checksum : Checksum) (rollingCrc : UInt32)
    (record : WalRecord) :
    8 ≤ (record.frame checksum rollingCrc).length := by
  simp only [frame, List.length_append, length_header, length_leBytes]
  omega

end WalRecord

namespace WriteAheadLog

/-! ## What is read as a record -/

theorem readBody_eq_some {memory : Nat → UInt8} {keyLen valueLen : Nat}
    {rest after key value : Bytes}
    (read : readBody memory keyLen valueLen rest =
      some ((key, value), after)) :
    key.length = keyLen ∧ value.length = valueLen ∧
      rest = (if key = [] then [] else key ++ value) ++ after := by
  unfold readBody at read
  split at read
  · rename_i nonempty
    rcases Option.bind_eq_some_iff.mp read with
      ⟨⟨first, middle⟩, readKey, read⟩
    rcases Option.bind_eq_some_iff.mp read with
      ⟨⟨second, last⟩, readValue, done⟩
    cases done
    rcases readExact_eq_some_iff.mp readKey with ⟨keyLength, rfl⟩
    rcases readExact_eq_some_iff.mp readValue with ⟨valueLength, rfl⟩
    have present : key ≠ [] := by
      rw [← List.length_pos_iff]
      omega
    exact ⟨keyLength, valueLength, by simp [present]⟩
  · rename_i empty
    cases read
    exact ⟨(not_not.mp empty).symm, by simp, rfl⟩

theorem readTimestamp_eq_some {isCommit : Bool} {rest after : Bytes}
    {timestamp : Option Timestamp}
    (read : readTimestamp isCommit rest = some (timestamp, after)) :
    isCommit = timestamp.isSome ∧
      rest = (timestamp.map Timestamp.asBytes).getD [] ++ after := by
  cases isCommit with
  | false =>
      cases read
      exact ⟨rfl, rfl⟩
  | true =>
      rcases Option.bind_eq_some_iff.mp read with
        ⟨⟨buf, middle⟩, readBuf, done⟩
      cases done
      rcases readExact_eq_some_iff.mp readBuf with ⟨length, rfl⟩
      have bound : ofBeBytes buf < 2 ^ 64 := by
        simpa [length] using ofBeBytes_lt buf
      have same := beBytes_ofBeBytes buf
      rw [length] at same
      refine ⟨rfl, ?_⟩
      simp only [Option.map_some, Option.getD_some, Timestamp.asBytes,
        Timestamp.new, UInt64.toNat_ofNat']
      rw [Nat.mod_eq_of_lt bound, same]

/-- A word whose low bits and sign are those of a record's key. -/
theorem keyLen_eq {record : WalRecord} {word : UInt16}
    (length : record.key.length = (word &&& ~~~COMMIT_BIT).toNat)
    (commit : decide (word &&& COMMIT_BIT ≠ 0) =
      record.timestamp.isSome) :
    record.keyLen = word := by
  have bound := word.toNat_lt
  rw [toNat_and_not_COMMIT_BIT] at length
  have small : record.key.length < 2 ^ 15 := by omega
  apply UInt16.toNat_inj.mp
  unfold WalRecord.keyLen
  rw [← commit]
  by_cases sign : word.toNat < 2 ^ 15
  · rw [if_neg (by simp [(and_COMMIT_BIT_eq_zero_iff word).mpr sign]),
      UInt16.toNat_ofNat']
    omega
  · have set : word &&& COMMIT_BIT ≠ 0 := by
      rwa [ne_eq, and_COMMIT_BIT_eq_zero_iff]
    rw [if_pos (by simp [set]), toNat_or_COMMIT_BIT small]
    omega

theorem leBytes_word {buf : Bytes} (length : buf.length = 2) :
    leBytes 2 (UInt16.ofNat (ofLeBytes buf)).toNat = buf := by
  have bound : ofLeBytes buf < 2 ^ 16 := by
    simpa [length] using ofLeBytes_lt buf
  rw [UInt16.toNat_ofNat', Nat.mod_eq_of_lt bound, ← length,
    leBytes_ofLeBytes]

theorem leBytes_doubleWord {buf : Bytes} (length : buf.length = 4) :
    leBytes 4 (UInt32.ofNat (ofLeBytes buf)).toNat = buf := by
  have bound : ofLeBytes buf < 2 ^ 32 := by
    simpa [length] using ofLeBytes_lt buf
  rw [UInt32.toNat_ofNat', Nat.mod_eq_of_lt bound, ← length,
    leBytes_ofLeBytes]

/-- Only a frame is taken for a record. -/
theorem nextRecord_eq_some {checksum : Checksum} {memory : Nat → UInt8}
    {rollingCrc crc : UInt32} {bytes rest : Bytes} {record : WalRecord}
    (read : nextRecord checksum memory rollingCrc bytes =
      some ((record, crc), rest)) :
    record.Readable ∧ crc = record.crc checksum rollingCrc ∧
      bytes = record.frame checksum rollingCrc ++ rest := by
  rcases Option.bind_eq_some_iff.mp read with
    ⟨⟨keyBuf, rest₁⟩, readKeyLen, read⟩
  rcases Option.bind_eq_some_iff.mp read with
    ⟨⟨valueBuf, rest₂⟩, readValueLen, read⟩
  rcases Option.bind_eq_some_iff.mp read with
    ⟨⟨⟨key, value⟩, rest₃⟩, readBody, read⟩
  rcases Option.bind_eq_some_iff.mp read with
    ⟨⟨timestamp, rest₄⟩, readTimestamp, read⟩
  rcases Option.bind_eq_some_iff.mp read with
    ⟨⟨crcBuf, rest₅⟩, readCrc, done⟩
  rcases readExact_eq_some_iff.mp readKeyLen with ⟨keyBufLength, rfl⟩
  rcases readExact_eq_some_iff.mp readValueLen with ⟨valueBufLength, rfl⟩
  rcases readBody_eq_some readBody with ⟨keyLength, valueLength, rfl⟩
  rcases readTimestamp_eq_some readTimestamp with ⟨commit, rfl⟩
  rcases readExact_eq_some_iff.mp readCrc with ⟨crcBufLength, rfl⟩
  have accepted : UInt32.ofNat (ofLeBytes crcBuf) =
        WalRecord.crc checksum rollingCrc ⟨key, value, timestamp⟩ ∧
      record = ⟨key, value, timestamp⟩ ∧
      crc = WalRecord.crc checksum rollingCrc ⟨key, value, timestamp⟩ ∧
      rest = rest₅ := by
    cases timestamp with
    | none =>
        dsimp only at done
        split at done
        · cases done
        · rename_i equal
          cases done
          have same : WalRecord.crc checksum rollingCrc
              ⟨key, value, none⟩ =
                Hasher.finalize checksum (((Hasher.newWithInitial
                  rollingCrc).update key).update value) :=
            congrArg (checksum rollingCrc)
              (List.append_nil (key ++ value))
          rw [same]
          exact ⟨(not_not.mp equal).symm, rfl, rfl, rfl⟩
    | some ts =>
        dsimp only at done
        split at done
        · cases done
        · rename_i equal
          cases done
          exact ⟨(not_not.mp equal).symm, rfl, rfl, rfl⟩
  rcases accepted with ⟨crcNumber, rfl, rfl, rfl⟩
  have word : WalRecord.keyLen ⟨key, value, timestamp⟩ = _ :=
    keyLen_eq keyLength commit
  have valueBound := ofLeBytes_lt valueBuf
  rw [valueBufLength] at valueBound
  refine ⟨⟨?_, valueLength ▸ valueBound⟩, rfl, ?_⟩
  · rw [keyLength, toNat_and_not_COMMIT_BIT]
    exact Nat.mod_lt _ (by decide)
  · rw [WalRecord.frame, WalRecord.header, word, ← crcNumber, valueLength,
      leBytes_word keyBufLength, leBytes_word valueBufLength,
      leBytes_doubleWord crcBufLength]
    by_cases empty : key = []
    · simp [empty, WalRecord.timestampBytes]
    · simp [empty, WalRecord.timestampBytes, WalRecord.hashed]

/-! ## Sequences of frames -/

section Frames

variable (checksum : Checksum)

/-- The bytes read as successive records. -/
def encodeFrames : UInt32 → List WalRecord → Bytes
  | _, [] => []
  | rollingCrc, record :: records =>
      record.frame checksum rollingCrc ++
        encodeFrames (record.nextCrc checksum rollingCrc) records

theorem encodeFrames_append (rollingCrc : UInt32)
    (left right : List WalRecord) :
    encodeFrames checksum rollingCrc (left ++ right) =
      encodeFrames checksum rollingCrc left ++
        encodeFrames checksum (rollingAfter checksum rollingCrc left)
          right := by
  induction left generalizing rollingCrc with
  | nil => rfl
  | cons head tail induction =>
      simp only [List.cons_append, encodeFrames, induction,
        List.append_assoc]
      rfl

theorem encodeFrames_eq_encodeRecords {records : List WalRecord}
    (valid : AllValid records) (rollingCrc : UInt32) :
    encodeFrames checksum rollingCrc records =
      encodeRecords checksum rollingCrc records := by
  induction records generalizing rollingCrc with
  | nil => rfl
  | cons head tail induction =>
      rw [encodeFrames, encodeRecords_cons, induction valid.tail,
        WalRecord.frame_eq_bytes checksum rollingCrc valid.head]

/-- Bytes which begin with frames, the last of which commits. -/
structure BeginsWith (rollingCrc : UInt32) (bytes : Bytes)
    (records : List WalRecord) : Prop where
  readable : ∀ record ∈ records, record.Readable
  framed : encodeFrames checksum rollingCrc records <+: bytes
  commits : ∃ last ∈ records.getLast?, last.timestamp.isSome = true

@[simp]
theorem push_rest (state : Replay) (record : WalRecord) (crc : UInt32)
    (rest : Bytes) : (state.push record crc rest).rest = rest := by
  unfold Replay.push
  split <;> rfl

@[simp]
theorem push_records (state : Replay) (record : WalRecord) (crc : UInt32)
    (rest : Bytes) :
    (state.push record crc rest).records =
      state.records ++ [record] := by
  unfold Replay.push
  split <;> rfl

theorem push_rollingCrc (state : Replay) (record : WalRecord)
    (rest : Bytes) :
    (state.push record (record.crc checksum state.rollingCrc)
      rest).rollingCrc = record.nextCrc checksum state.rollingCrc := by
  unfold Replay.push WalRecord.nextCrc
  split <;> rfl

theorem push_lastCommitPos (state : Replay) (record : WalRecord)
    (crc : UInt32) (rest : Bytes) :
    (state.push record crc rest).lastCommitPos =
      if record.timestamp.isSome then state.records.length + 1
      else state.lastCommitPos := by
  unfold Replay.push
  split <;> simp

theorem replayLoop_of_none (memory : Nat → Nat → UInt8) {state : Replay}
    (stops : nextRecord checksum (memory state.records.length)
      state.rollingCrc state.rest = none) (rounds : Nat) :
    replayLoop checksum memory (rounds + 1) state = .ok state := by
  rw [replayLoop, stops]
  split <;> rfl

theorem replayLoop_of_some (memory : Nat → Nat → UInt8) {state : Replay}
    {record : WalRecord} {crc : UInt32} {rest : Bytes}
    (read : nextRecord checksum (memory state.records.length)
      state.rollingCrc state.rest = some ((record, crc), rest))
    (rounds : Nat) :
    replayLoop checksum memory (rounds + 1) state =
      replayLoop checksum memory rounds (state.push record crc rest) := by
  have nonempty : state.rest ≠ [] := by
    intro empty
    rw [empty] at read
    cases read
  rw [replayLoop, if_neg (by simpa using nonempty), read]

/--
The loop reads frames from any bytes.  It leaves the last commit where it
was unless one of the frames commits.
-/
theorem replayLoop_frames (memory : Nat → Nat → UInt8) {rounds : Nat}
    (state : Replay) (enough : state.rest.length < rounds) :
    ∃ final frames,
      replayLoop checksum memory rounds state = .ok final ∧
        (∀ record ∈ frames, record.Readable) ∧
        encodeFrames checksum state.rollingCrc frames <+: state.rest ∧
        final.records = state.records ++ frames ∧
        ((∀ record ∈ frames, record.timestamp = none) ∧
            final.lastCommitPos = state.lastCommitPos ∨
          (∃ record ∈ frames, record.timestamp.isSome = true) ∧
            state.records.length < final.lastCommitPos) := by
  induction rounds generalizing state with
  | zero => omega
  | succ rounds induction =>
      cases read : nextRecord checksum (memory state.records.length)
          state.rollingCrc state.rest with
      | none =>
          exact ⟨state, [],
            replayLoop_of_none checksum memory read rounds,
            by simp, List.nil_prefix, by simp, Or.inl ⟨by simp, rfl⟩⟩
      | some result =>
          rcases result with ⟨⟨record, crc⟩, rest⟩
          rcases nextRecord_eq_some read with ⟨readable, rfl, shape⟩
          have long := WalRecord.eight_le_length_frame checksum
            state.rollingCrc record
          have shorter : rest.length < rounds := by
            rw [shape, List.length_append] at enough
            omega
          rcases induction (state.push record
              (record.crc checksum state.rollingCrc) rest)
              (by rwa [push_rest]) with
            ⟨final, frames, done, framesReadable, framed, records, last⟩
          rw [push_rest, push_rollingCrc] at framed
          rw [push_records, List.append_assoc,
            List.singleton_append] at records
          rw [push_records, push_lastCommitPos, List.length_append,
            List.length_singleton] at last
          refine ⟨final, record :: frames, ?_,
            List.forall_mem_cons.mpr ⟨readable, framesReadable⟩, ?_,
            records, ?_⟩
          · rw [replayLoop_of_some checksum memory read, done]
          · rw [shape, encodeFrames]
            exact (List.prefix_append_right_inj _).mpr framed
          · cases commits : record.timestamp.isSome with
            | true =>
                refine Or.inr ⟨⟨record, List.mem_cons_self, commits⟩, ?_⟩
                rw [if_pos commits] at last
                rcases last with ⟨-, same⟩ | ⟨-, later⟩ <;> omega
            | false =>
                rw [if_neg (by simp [commits])] at last
                rcases last with ⟨updates, same⟩ | ⟨commit, later⟩
                · have update : record.timestamp = none := by
                    simpa using commits
                  exact Or.inl
                    ⟨List.forall_mem_cons.mpr ⟨update, updates⟩, same⟩
                · rcases commit with ⟨other, member, commit⟩
                  exact Or.inr ⟨⟨other, List.mem_cons_of_mem _ member,
                    commit⟩, by omega⟩

/-- Frames up to one which commits. -/
theorem BeginsWith.of_mem {rollingCrc : UInt32} {bytes : Bytes}
    {frames : List WalRecord}
    (readable : ∀ record ∈ frames, record.Readable)
    (framed : encodeFrames checksum rollingCrc frames <+: bytes)
    {record : WalRecord} (member : record ∈ frames)
    (commits : record.timestamp.isSome = true) :
    ∃ records, BeginsWith checksum rollingCrc bytes records := by
  rcases List.append_of_mem member with ⟨left, right, rfl⟩
  have split : left ++ record :: right = (left ++ [record]) ++ right := by
    simp
  rw [split] at readable framed
  refine ⟨left ++ [record], ?_, ?_, record, by simp, commits⟩
  · exact fun other inside =>
      readable other (List.mem_append_left _ inside)
  · rw [encodeFrames_append] at framed
    exact (List.prefix_append _ _).trans framed

theorem not_beginsWith_nil (rollingCrc : UInt32)
    (records : List WalRecord) :
    ¬ BeginsWith checksum rollingCrc [] records := by
  rintro ⟨-, framed, last, isLast, -⟩
  cases records with
  | nil => simp at isLast
  | cons record records =>
      have long := WalRecord.eight_le_length_frame checksum rollingCrc
        record
      rw [encodeFrames, List.prefix_nil, List.append_eq_nil_iff] at framed
      simp [framed.1] at long

/--
What is replayed of written records with other bytes behind them: the
records up to the last commit, and nothing else without a frame among the
bytes which commits.
-/
theorem replay_append (memory : Nat → Nat → UInt8)
    {before : List WalRecord} (valid : AllValid before) :
    ∃ kept, kept <+: before ∧
      ((∃ commit ∈ before.getLast?, commit.timestamp.isSome = true) →
        kept = before) ∧
      ∀ bytes, ∃ result,
        replay checksum memory
            (encodeRecords checksum 0 before ++ bytes) = .ok result ∧
          kept <+: result ∧
          ((∀ records, ¬ BeginsWith checksum
              (rollingAfter checksum 0 before) bytes records) →
            result = kept) := by
  rcases replayLoop_records checksum memory valid [] 0 0 with
    ⟨last, within, atEnd, runs⟩
  rw [List.nil_append] at within atEnd
  have bound := within (Nat.le_refl 0)
  refine ⟨before.take last, List.take_prefix _ _, ?_, ?_⟩
  · intro commits
    rw [atEnd commits, List.take_length]
  · intro bytes
    have short := length_le_length_encodeRecords checksum 0 before
    obtain ⟨rounds, size⟩ : ∃ rounds,
        (encodeRecords checksum 0 before ++ bytes).length + 1 =
          rounds + before.length :=
      ⟨(encodeRecords checksum 0 before ++ bytes).length + 1 -
        before.length, by rw [List.length_append]; omega⟩
    have enough : bytes.length < rounds := by
      rw [List.length_append] at size
      omega
    rcases replayLoop_frames checksum memory
      ⟨bytes, before, last, rollingAfter checksum 0 before⟩ enough with
      ⟨final, frames, done, readable, framed, records, position⟩
    dsimp only at framed records position
    refine ⟨final.records.take final.lastCommitPos, ?_, ?_, ?_⟩
    · rw [replay, size, runs, List.nil_append, done]
      rfl
    · have later : last ≤ final.lastCommitPos := by omega
      rw [records, ← List.take_append_of_le_length bound]
      exact List.take_prefix_take_left later
    · intro nothing
      rcases position with ⟨-, same⟩ | ⟨⟨record, member, commits⟩, -⟩
      · rw [records, same, List.take_append_of_le_length bound]
      · rcases BeginsWith.of_mem checksum readable framed member
          commits with ⟨begun, begins⟩
        exact absurd begins (nothing begun)

/-- Without a commit behind them the records are replayed as they are. -/
theorem replay_append_of_nothing (memory : Nat → Nat → UInt8)
    {before : List WalRecord} (valid : AllValid before) {bytes : Bytes}
    (nothing : ∀ records, ¬ BeginsWith checksum
      (rollingAfter checksum 0 before) bytes records) :
    ∃ kept, kept <+: before ∧
      replay checksum memory (encodeRecords checksum 0 before) =
        .ok kept ∧
      replay checksum memory
        (encodeRecords checksum 0 before ++ bytes) = .ok kept := by
  rcases replay_append checksum memory valid with
    ⟨kept, inside, -, replays⟩
  obtain ⟨result, replayed, -, exact⟩ := replays bytes
  obtain ⟨alone, replayedAlone, -, exactAlone⟩ := replays []
  rw [exact nothing] at replayed
  rw [List.append_nil,
    exactAlone (not_beginsWith_nil checksum _)] at replayedAlone
  exact ⟨kept, inside, replayedAlone, replayed⟩

/-- Frames up to a commit are replayed, whatever stands behind them. -/
theorem replay_append_of_frames (memory : Nat → Nat → UInt8)
    {before records : List WalRecord} (valid : AllValid before)
    (recordsValid : AllValid records) {bytes : Bytes}
    (begins : BeginsWith checksum (rollingAfter checksum 0 before) bytes
      records) :
    ∃ result,
      replay checksum memory
          (encodeRecords checksum 0 before ++ bytes) = .ok result ∧
        before ++ records <+: result := by
  rcases begins with ⟨-, framed, last, isLast, commits⟩
  rw [encodeFrames_eq_encodeRecords checksum recordsValid] at framed
  rcases framed with ⟨more, rfl⟩
  rcases replay_append checksum memory (valid.append recordsValid) with
    ⟨kept, -, whole, replays⟩
  obtain ⟨result, replayed, read, -⟩ := replays more
  have committed : kept = before ++ records := by
    refine whole ⟨last, ?_, commits⟩
    rw [List.getLast?_append, Option.mem_def.mp isLast]
    rfl
  rw [encodeRecords_append, List.append_assoc] at replayed
  exact ⟨result, replayed, committed ▸ read⟩

end Frames

end WriteAheadLog

end Cdoc
