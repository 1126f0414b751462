import Mathlib.Data.Nat.Bitwise
import Cdoc.Wal

/-!
# Records in the log

The bytes of a record are a function of the record and of the checksum it
continues.  A sound device appends exactly these bytes, and a reader finds
the record in front of anything that follows.  A reading does not depend on
the bytes behind it, so a torn record is never taken for a whole one.
-/

namespace Cdoc

open Cdoc.Foundation

namespace WalRecord

/-- The bytes of the timestamp, in the record which commits. -/
def timestampBytes (record : WalRecord) : Bytes :=
  (record.timestamp.map Timestamp.asBytes).getD []

/-- The checksum of a record which continues another one. -/
def crc (checksum : Checksum) (rollingCrc : UInt32)
    (record : WalRecord) : UInt32 :=
  checksum rollingCrc
    (record.key ++ record.value ++ record.timestampBytes)

/-- The checksum which the next record continues. -/
def nextCrc (checksum : Checksum) (rollingCrc : UInt32)
    (record : WalRecord) : UInt32 :=
  if record.timestamp.isSome then 0 else record.crc checksum rollingCrc

/-- The length of the key with the commit bit. -/
def keyLen (record : WalRecord) : UInt16 :=
  if record.timestamp.isSome then
    UInt16.ofNat record.key.length ||| WriteAheadLog.COMMIT_BIT
  else
    UInt16.ofNat record.key.length

/-- The bytes of a record. -/
def bytes (checksum : Checksum) (rollingCrc : UInt32)
    (record : WalRecord) : Bytes :=
  leBytes 2 record.keyLen.toNat ++
    (leBytes 2 (UInt16.ofNat record.value.length).toNat ++
      (record.key ++ (record.value ++ (record.timestampBytes ++
        leBytes 4 (record.crc checksum rollingCrc).toNat))))

theorem length_bytes (checksum : Checksum) (crc : UInt32)
    (record : WalRecord) :
    (record.bytes checksum crc).length =
      8 + record.key.length + record.value.length +
        record.timestampBytes.length := by
  simp only [bytes, List.length_append, length_leBytes]
  omega

/-- The records which the framing can represent. -/
def Valid (record : WalRecord) : Prop :=
  (1 ≤ record.key.length ∧ record.key.length ≤ 32767 ∧
      record.value.length ≤ 65535) ∨
    (record.key = [] ∧ record.value = [])

instance (record : WalRecord) : Decidable record.Valid :=
  inferInstanceAs (Decidable (_ ∨ _))

theorem Valid.key_lt {record : WalRecord} (valid : record.Valid) :
    record.key.length < 2 ^ 15 := by
  rcases valid with ⟨-, bound, -⟩ | ⟨empty, -⟩
  · omega
  · simp [empty]

theorem Valid.value_lt {record : WalRecord} (valid : record.Valid) :
    record.value.length < 2 ^ 16 := by
  rcases valid with ⟨-, -, bound⟩ | ⟨-, empty⟩
  · omega
  · simp [empty]

end WalRecord

namespace WriteAheadLog

/-! ## The commit bit -/

theorem toNat_COMMIT_BIT : COMMIT_BIT.toNat = 2 ^ 15 := by
  decide

theorem toNat_and_not_COMMIT_BIT (word : UInt16) :
    (word &&& ~~~COMMIT_BIT).toNat = word.toNat % 2 ^ 15 := by
  have mask : (~~~COMMIT_BIT).toNat = 2 ^ 15 - 1 := by decide
  rw [UInt16.toNat_and, mask, Nat.and_two_pow_sub_one_eq_mod]

theorem and_COMMIT_BIT_eq_zero_iff (word : UInt16) :
    word &&& COMMIT_BIT = 0 ↔ word.toNat < 2 ^ 15 := by
  have bound := word.toNat_lt
  rw [← UInt16.toNat_inj, UInt16.toNat_and, toNat_COMMIT_BIT,
    Nat.and_two_pow, Nat.testBit_eq_decide_div_mod_eq]
  simp only [UInt16.toNat_zero, mul_eq_zero, Bool.toNat_eq_zero,
    decide_eq_false_iff_not]
  omega

theorem toNat_or_COMMIT_BIT {length : Nat} (small : length < 2 ^ 15) :
    (UInt16.ofNat length ||| COMMIT_BIT).toNat = length + 2 ^ 15 := by
  rw [UInt16.toNat_or, toNat_COMMIT_BIT, UInt16.toNat_ofNat',
    Nat.mod_eq_of_lt (by omega), Nat.or_comm]
  have shape := Nat.two_pow_add_eq_or_of_lt small 1
  rw [Nat.mul_one] at shape
  omega

theorem toNat_keyLen {record : WalRecord}
    (small : record.key.length < 2 ^ 15) :
    record.keyLen.toNat =
      if record.timestamp.isSome then record.key.length + 2 ^ 15
      else record.key.length := by
  unfold WalRecord.keyLen
  split
  · exact toNat_or_COMMIT_BIT small
  · rw [UInt16.toNat_ofNat']
    exact Nat.mod_eq_of_lt (by omega)

/-! ## Writing a record -/

/-- A log at the end of its file. -/
def endingWith (contents : Bytes) (fault : Option Nat) (last : Nat)
    (crc : UInt32) : WriteAheadLog :=
  ⟨⟨contents, contents.length, fault⟩, last, crc⟩

/--
A computation which appends `data`.  On a faulty device it fails exactly
when the device does not accept all of it, and then leaves the part which
was accepted.
-/
structure Appends {α : Type} (action : Io WriteAheadLog α)
    (contents : Bytes) (last : Nat) (crc : UInt32) (data : Bytes)
    (value : α) (last' : Nat) (crc' : UInt32) : Prop where
  sound : action (endingWith contents none last crc) =
    .ok value (endingWith (contents ++ data) none last' crc')
  whole : ∀ accepted, data.length ≤ accepted →
    action (endingWith contents (some accepted) last crc) =
      .ok value (endingWith (contents ++ data)
        (some (accepted - data.length)) last' crc')
  torn : ∀ accepted, accepted < data.length → ∃ crc'',
    action (endingWith contents (some accepted) last crc) =
      .error .device (endingWith (contents ++ data.take accepted)
        (some 0) last crc'')

theorem Appends.bind {α β : Type} {first : Io WriteAheadLog α}
    {next : α → Io WriteAheadLog β} {contents : Bytes} {last last' : Nat}
    {crc crc₁ crc' : UInt32} {data₁ data₂ : Bytes} {middle : α} {value : β}
    (firstAppends :
      Appends first contents last crc data₁ middle last crc₁)
    (nextAppends :
      Appends (next middle) (contents ++ data₁) last crc₁ data₂ value
        last' crc') :
    Appends (first >>= next) contents last crc (data₁ ++ data₂) value
      last' crc' where
  sound := by
    rw [io_bind_of_ok firstAppends.sound, nextAppends.sound,
      List.append_assoc]
  whole := by
    intro accepted enough
    rw [List.length_append] at enough ⊢
    rw [io_bind_of_ok (firstAppends.whole accepted (by omega)),
      nextAppends.whole _ (by omega), List.append_assoc, Nat.sub_sub]
  torn := by
    intro accepted short
    rw [List.length_append] at short
    by_cases inFirst : accepted < data₁.length
    · rcases firstAppends.torn accepted inFirst with ⟨crc'', failed⟩
      exact ⟨crc'', by
        rw [io_bind_of_error failed,
          List.take_append_of_le_length inFirst.le]⟩
    · rcases nextAppends.torn (accepted - data₁.length) (by omega) with
        ⟨crc'', failed⟩
      have taken : (data₁ ++ data₂).take accepted =
          data₁ ++ data₂.take (accepted - data₁.length) := by
        rw [List.take_append, List.take_of_length_le (by omega)]
      exact ⟨crc'', by
        rw [io_bind_of_ok (firstAppends.whole accepted (by omega)),
          failed, taken, List.append_assoc]⟩

theorem writeAll_appends (contents : Bytes) (last : Nat) (crc : UInt32)
    (data : Bytes) :
    Appends (onFile (File.writeAll data)) contents last crc data () last
      crc where
  sound := by
    simp [onFile, File.writeAll, endingWith, File.overwrite_end]
  whole := by
    intro accepted enough
    simp [onFile, File.writeAll, endingWith, File.overwrite_end, enough,
      List.take_of_length_le enough]
  torn := by
    intro accepted short
    refine ⟨crc, ?_⟩
    have shorter : min accepted data.length = accepted := by omega
    simp [onFile, File.writeAll, endingWith, File.overwrite_end,
      Nat.not_le.mpr short, shorter]

/-- A first step on the fields of the log alone. -/
theorem Appends.after_fields {α β : Type} {first : Io WriteAheadLog α}
    {next : α → Io WriteAheadLog β} {contents : Bytes} {last last' : Nat}
    {crc crc₁ crc' : UInt32} {data : Bytes} {middle : α} {value : β}
    (runs : ∀ fault, first (endingWith contents fault last crc) =
      .ok middle (endingWith contents fault last crc₁))
    (nextAppends : Appends (next middle) contents last crc₁ data value
      last' crc') :
    Appends (first >>= next) contents last crc data value last' crc' where
  sound := by
    rw [io_bind_of_ok (runs none), nextAppends.sound]
  whole := by
    intro accepted enough
    rw [io_bind_of_ok (runs _), nextAppends.whole accepted enough]
  torn := by
    intro accepted short
    rw [io_bind_of_ok (runs _)]
    exact nextAppends.torn accepted short

/-- A first step which reads the fields of the log. -/
theorem Appends.after_get {β : Type}
    {next : WriteAheadLog → Io WriteAheadLog β} {contents : Bytes}
    {last last' : Nat} {crc crc' : UInt32} {data : Bytes} {value : β}
    (same : ∀ fault, next (endingWith contents fault last crc) =
      next (endingWith contents none last crc))
    (appends : Appends (next (endingWith contents none last crc)) contents
      last crc data value last' crc') :
    Appends (get >>= next) contents last crc data value last' crc' where
  sound := appends.sound
  whole := by
    intro accepted enough
    show next (endingWith contents (some accepted) last crc) _ = _
    rw [same, appends.whole accepted enough]
  torn := by
    intro accepted short
    show ∃ crc'', next (endingWith contents (some accepted) last crc) _ =
      _
    rw [same]
    exact appends.torn accepted short

/-- A last step on the fields of the log alone. -/
theorem Appends.of_fields {α : Type} {action : Io WriteAheadLog α}
    {contents : Bytes} {last last' : Nat} {crc crc' : UInt32} {value : α}
    (runs : ∀ fault, action (endingWith contents fault last crc) =
      .ok value (endingWith contents fault last' crc')) :
    Appends action contents last crc [] value last' crc' where
  sound := by
    rw [runs, List.append_nil]
  whole := by
    intro accepted _
    rw [runs, List.append_nil]
    rfl
  torn := by
    intro accepted short
    cases short

theorem Appends.of_eq {α : Type} {action : Io WriteAheadLog α}
    {contents : Bytes} {last last₁ last₂ : Nat} {crc crc₁ crc₂ : UInt32}
    {data data₁ : Bytes} {value : α}
    (appends :
      Appends action contents last crc data value last₁ crc₁)
    (sameData : data = data₁) (sameLast : last₁ = last₂)
    (sameCrc : crc₁ = crc₂) :
    Appends action contents last crc data₁ value last₂ crc₂ := by
  subst sameData sameLast sameCrc
  exact appends

/-- Writing a record appends its bytes. -/
theorem writeRecord_appends (checksum : Checksum) (contents : Bytes)
    (last : Nat) (crc : UInt32) (record : WalRecord) :
    Appends
      (writeRecord checksum record.key record.value record.timestamp)
      contents last crc (record.bytes checksum crc) ()
      (if record.timestamp.isSome then
        (contents ++ record.bytes checksum crc).length else last)
      (record.nextCrc checksum crc) := by
  rcases record with ⟨key, value, timestamp⟩
  unfold writeRecord
  cases timestamp with
  | none =>
      apply Appends.of_eq
      case appends =>
        apply Appends.bind (writeAll_appends _ _ _ _)
        apply Appends.bind (writeAll_appends _ _ _ _)
        apply Appends.after_get (fun _ => rfl)
        apply Appends.bind (writeAll_appends _ _ _ _)
        apply Appends.bind (writeAll_appends _ _ _ _)
        apply Appends.after_fields
        · exact fun _ => rfl
        apply Appends.after_fields
        · exact fun _ => rfl
        apply Appends.after_get (fun _ => rfl)
        apply Appends.bind (writeAll_appends _ _ _ _)
        exact Appends.of_fields fun _ => rfl
      case sameData =>
        simp [WalRecord.bytes, WalRecord.keyLen, WalRecord.timestampBytes,
          WalRecord.crc, Hasher.finalize, Hasher.update,
          Hasher.newWithInitial, endingWith]
      case sameLast => rfl
      case sameCrc =>
        simp [WalRecord.nextCrc, WalRecord.crc, WalRecord.timestampBytes,
          Hasher.finalize, Hasher.update, Hasher.newWithInitial,
          endingWith]
  | some ts =>
      apply Appends.of_eq
      case appends =>
        apply Appends.bind (writeAll_appends _ _ _ _)
        apply Appends.bind (writeAll_appends _ _ _ _)
        apply Appends.after_get (fun _ => rfl)
        apply Appends.bind (writeAll_appends _ _ _ _)
        apply Appends.bind (writeAll_appends _ _ _ _)
        apply Appends.bind (writeAll_appends _ _ _ _)
        apply Appends.after_fields
        · exact fun _ => rfl
        apply Appends.after_fields
        · exact fun _ => rfl
        apply Appends.after_get (fun _ => rfl)
        apply Appends.bind (writeAll_appends _ _ _ _)
        exact Appends.of_fields fun _ => rfl
      case sameData =>
        simp [WalRecord.bytes, WalRecord.keyLen, WalRecord.timestampBytes,
          WalRecord.crc, Hasher.finalize, Hasher.update,
          Hasher.newWithInitial, endingWith]
      case sameLast =>
        simp [WalRecord.bytes, WalRecord.keyLen, WalRecord.timestampBytes]
      case sameCrc => rfl

/-- The log after a record has been appended. -/
def appendRecord (checksum : Checksum) (self : WriteAheadLog)
    (record : WalRecord) : WriteAheadLog where
  file := self.file.appended (record.bytes checksum self.rollingCrc) none
  lastCommitPos :=
    if record.timestamp.isSome then
      self.file.position +
        (record.bytes checksum self.rollingCrc).length
    else
      self.lastCommitPos
  rollingCrc := record.nextCrc checksum self.rollingCrc

theorem endingWith_of_atEnd {self : WriteAheadLog}
    (atEnd : self.file.AtEnd) :
    self = endingWith self.file.contents self.file.fault
      self.lastCommitPos self.rollingCrc := by
  rcases self with ⟨⟨contents, position, fault⟩, last, crc⟩
  have position_eq : position = contents.length := atEnd
  subst position_eq
  rfl

theorem withFault_of_atEnd {self : WriteAheadLog}
    (atEnd : self.file.AtEnd) (fault : Option Nat) :
    self.withFault fault = endingWith self.file.contents fault
      self.lastCommitPos self.rollingCrc := by
  rcases self with ⟨⟨contents, place, device⟩, last, crc⟩
  have position : place = contents.length := atEnd
  subst position
  rfl

/-- A sound device appends the bytes of the record. -/
theorem writeRecord_of_sound (checksum : Checksum)
    {self : WriteAheadLog} (atEnd : self.file.AtEnd)
    (sound : self.file.fault = none) (record : WalRecord) :
    writeRecord checksum record.key record.value record.timestamp self =
      .ok () (self.appendRecord checksum record) := by
  have position : self.file.position = self.file.contents.length := atEnd
  have written := (writeRecord_appends checksum self.file.contents
    self.lastCommitPos self.rollingCrc record).sound
  rw [← sound, ← endingWith_of_atEnd atEnd, sound] at written
  rw [written]
  simp only [endingWith, appendRecord, File.appended, position,
    List.length_append]

/--
Writing a record on a device which may fail: the record is appended when the
device accepts it, and otherwise the part which it does accept.
-/
theorem writeRecord_of_fault (checksum : Checksum)
    {self : WriteAheadLog} (atEnd : self.file.AtEnd)
    (record : WalRecord) (fault : Option Nat) :
    if accepts fault (record.bytes checksum self.rollingCrc).length then
      ∃ result, writeRecord checksum record.key record.value
          record.timestamp (self.withFault fault) = .ok () result ∧
        result.withFault none = self.appendRecord checksum record
    else
      ∃ result part, writeRecord checksum record.key record.value
          record.timestamp (self.withFault fault) =
            .error .device result ∧
        part <+: record.bytes checksum self.rollingCrc ∧
        part ≠ record.bytes checksum self.rollingCrc ∧
        result.file.contents = self.file.contents ++ part ∧
        result.file.AtEnd := by
  have position : self.file.position = self.file.contents.length := atEnd
  have appends := writeRecord_appends checksum self.file.contents
    self.lastCommitPos self.rollingCrc record
  rw [withFault_of_atEnd atEnd]
  have final : (endingWith
      (self.file.contents ++ record.bytes checksum self.rollingCrc) none
      (if record.timestamp.isSome then (self.file.contents ++
        record.bytes checksum self.rollingCrc).length
        else self.lastCommitPos)
      (record.nextCrc checksum self.rollingCrc)) =
      self.appendRecord checksum record := by
    simp only [endingWith, appendRecord, File.appended, position,
      List.length_append]
  cases fault with
  | none =>
      exact ⟨_, appends.sound, final⟩
  | some accepted =>
      simp only [accepts, decide_eq_true_eq]
      split
      · rename_i enough
        exact ⟨_, appends.whole accepted enough, final⟩
      · rename_i short
        rcases appends.torn accepted (Nat.lt_of_not_le short) with
          ⟨crc, failed⟩
        refine ⟨_, _, failed, List.take_prefix _ _, ?_, rfl, rfl⟩
        intro whole
        have length := congrArg List.length whole
        rw [List.length_take] at length
        omega

/-- The position of the last commit survives a failing device. -/
theorem lastCommitPos_of_torn (checksum : Checksum)
    {self result : WriteAheadLog} (atEnd : self.file.AtEnd)
    (record : WalRecord) {fault : Option Nat}
    (failed : writeRecord checksum record.key record.value
      record.timestamp (self.withFault fault) = .error .device result) :
    result.lastCommitPos = self.lastCommitPos := by
  have appends := writeRecord_appends checksum self.file.contents
    self.lastCommitPos self.rollingCrc record
  rw [withFault_of_atEnd atEnd] at failed
  cases fault with
  | none =>
      rw [appends.sound] at failed
      cases failed
  | some accepted =>
      by_cases enough :
          (record.bytes checksum self.rollingCrc).length ≤ accepted
      · rw [appends.whole accepted enough] at failed
        cases failed
      · rcases appends.torn accepted (Nat.lt_of_not_le enough) with
          ⟨crc, torn⟩
        rw [torn] at failed
        cases failed
        rfl

/-- A device which accepts nothing leaves the log as it was. -/
theorem writeRecord_refused_at_once (checksum : Checksum)
    {self : WriteAheadLog} (atEnd : self.file.AtEnd) (record : WalRecord) :
    writeRecord checksum record.key record.value record.timestamp
        (self.withFault (some 0)) =
      .error .device (self.withFault (some 0)) := by
  have position : self.file.position = self.file.contents.length := atEnd
  refine io_bind_of_error ?_
  simp [onFile, File.writeAll, withFault, position, File.overwrite_end]

/-! ## Cutting the log -/

theorem truncateToLastCommit_eq (self : WriteAheadLog) :
    truncateToLastCommit self =
      .ok () {
        file := {
          contents := File.resize self.file.contents self.lastCommitPos
          position := self.lastCommitPos
          fault := self.file.fault }
        lastCommitPos := self.lastCommitPos
        rollingCrc := 0 } :=
  rfl

/-- A log which was truncated is written at its end. -/
theorem atEnd_of_truncate {self after : WriteAheadLog}
    (truncated : truncateToLastCommit self = .ok () after) :
    after.file.AtEnd := by
  rw [truncateToLastCommit_eq] at truncated
  cases truncated
  show _ = (File.resize _ _).length
  rw [File.length_resize]

theorem reset_eq (self : WriteAheadLog) :
    reset self =
      .ok () ⟨⟨[], 0, self.file.fault⟩, 0, 0⟩ := by
  have emptied : File.resize self.file.contents 0 = [] := by
    simp [File.resize]
  have cut : reset self =
      .ok () ⟨⟨File.resize self.file.contents 0, 0, self.file.fault⟩,
        0, 0⟩ :=
    rfl
  rw [cut, emptied]

/-! ## Reading a record -/

/-- A reader which does not depend on the bytes it leaves. -/
def Local {α : Type} (read : Bytes → Option (α × Bytes)) : Prop :=
  ∀ rest value after, read rest = some (value, after) →
    ∀ more, read (rest ++ more) = some (value, after ++ more)

theorem Local.readExact (length : Nat) : Local (readExact length) := by
  intro rest data after read more
  unfold Foundation.readExact at read ⊢
  split at read
  · rename_i within
    simp only [Option.some.injEq, Prod.mk.injEq] at read
    rcases read with ⟨rfl, rfl⟩
    rw [if_pos (by simp only [List.length_append]; omega),
      List.take_append_of_le_length within,
      List.drop_append_of_le_length within]
  · cases read

theorem Local.pure {α : Type} (value : α) :
    Local fun rest => some (value, rest) := by
  intro rest result after read more
  cases read
  rfl

theorem Local.bind {α β : Type} {first : Bytes → Option (α × Bytes)}
    {next : α × Bytes → Option (β × Bytes)} (firstLocal : Local first)
    (nextLocal : ∀ value, Local fun rest => next (value, rest)) :
    Local fun rest => first rest >>= next := by
  intro rest result after read more
  rcases Option.bind_eq_some_iff.mp read with
    ⟨⟨value, middle⟩, firstRead, nextRead⟩
  apply Option.bind_eq_some_iff.mpr
  exact ⟨_, firstLocal rest value middle firstRead more,
    nextLocal value middle result after nextRead more⟩

theorem Local.none {α : Type} :
    Local fun _ : Bytes => (Option.none : Option (α × Bytes)) := by
  intro rest result after read
  cases read

theorem readBody_local (memory : Nat → UInt8) (keyLen valueLen : Nat) :
    Local (readBody memory keyLen valueLen) := by
  unfold readBody
  split
  · apply Local.bind (Local.readExact keyLen)
    intro key
    apply Local.bind (Local.readExact valueLen)
    intro value
    exact Local.pure (key, value)
  · exact Local.pure _

theorem readTimestamp_local (isCommit : Bool) :
    Local (readTimestamp isCommit) := by
  unfold readTimestamp
  split
  · apply Local.bind (Local.readExact 8)
    intro buf
    exact Local.pure _
  · exact Local.pure _

/-- What is read as a record does not depend on the bytes behind it. -/
theorem nextRecord_local (checksum : Checksum) (memory : Nat → UInt8)
    (rollingCrc : UInt32) :
    Local (nextRecord checksum memory rollingCrc) := by
  unfold nextRecord
  apply Local.bind (Local.readExact 2)
  intro keyBuf
  apply Local.bind (Local.readExact 2)
  intro valueBuf
  apply Local.bind (readBody_local memory _ _)
  rintro ⟨key, value⟩
  apply Local.bind (readTimestamp_local _)
  intro timestamp
  apply Local.bind (Local.readExact 4)
  intro crcBuf
  cases timestamp with
  | none =>
      dsimp only
      split
      · exact Local.none
      · exact Local.pure _
  | some ts =>
      dsimp only
      split
      · exact Local.none
      · exact Local.pure _

theorem readBody_append (memory : Nat → UInt8) {record : WalRecord}
    (valid : record.Valid) (after : Bytes) :
    readBody memory record.key.length record.value.length
        (record.key ++ (record.value ++ after)) =
      some ((record.key, record.value), after) := by
  unfold readBody
  rcases valid with ⟨positive, -⟩ | ⟨emptyKey, emptyValue⟩
  · rw [if_pos (by omega)]
    simp [readExact_append]
  · simp [emptyKey, emptyValue]

theorem readTimestamp_append (record : WalRecord) (after : Bytes) :
    readTimestamp record.timestamp.isSome
        (record.timestampBytes ++ after) =
      some (record.timestamp, after) := by
  rcases record with ⟨key, value, timestamp⟩
  cases timestamp with
  | none => rfl
  | some ts =>
      have read := readExact_append_of_eq ts.length_asBytes after
      simp only [readTimestamp, WalRecord.timestampBytes,
        Option.isSome_some, if_true, Option.map_some, Option.getD_some,
        read, Option.pure_def, Option.bind_eq_bind, Option.bind_some,
        Timestamp.ofBeBytes_asBytes, UInt64.ofNat_toNat]
      rfl

/-- A whole record is found in front of whatever follows it. -/
theorem nextRecord_bytes_append (checksum : Checksum)
    (memory : Nat → UInt8) (rollingCrc : UInt32) {record : WalRecord}
    (valid : record.Valid) (after : Bytes) :
    nextRecord checksum memory rollingCrc
        (record.bytes checksum rollingCrc ++ after) =
      some ((record, record.crc checksum rollingCrc), after) := by
  have small := valid.key_lt
  have keyLen := toNat_keyLen small
  have keyNumber :
      UInt16.ofNat (ofLeBytes (leBytes 2 record.keyLen.toNat)) =
        record.keyLen := by
    rw [ofLeBytes_leBytes record.keyLen.toNat_lt, UInt16.ofNat_toNat]
  have commit :
      decide (record.keyLen &&& COMMIT_BIT ≠ 0) =
        record.timestamp.isSome := by
    simp only [ne_eq, and_COMMIT_BIT_eq_zero_iff, keyLen]
    cases record.timestamp with
    | none => simp; omega
    | some ts => simp
  have keyLength :
      (record.keyLen &&& ~~~COMMIT_BIT).toNat = record.key.length := by
    rw [toNat_and_not_COMMIT_BIT, keyLen]
    cases record.timestamp with
    | none => simp; omega
    | some ts => simp; omega
  have valueLength :
      ofLeBytes (leBytes 2 (UInt16.ofNat record.value.length).toNat) =
        record.value.length := by
    rw [ofLeBytes_leBytes (UInt16.toNat_lt _), UInt16.toNat_ofNat',
      Nat.mod_eq_of_lt valid.value_lt]
  have crcNumber :
      UInt32.ofNat (ofLeBytes (leBytes 4
        (record.crc checksum rollingCrc).toNat)) =
        record.crc checksum rollingCrc := by
    rw [ofLeBytes_leBytes (UInt32.toNat_lt _), UInt32.ofNat_toNat]
  simp only [nextRecord, WalRecord.bytes, List.append_assoc,
    readExact_append_of_eq (length_leBytes _ _), Option.bind_eq_bind,
    Option.bind_some, keyNumber, commit, keyLength, valueLength,
    readBody_append memory valid, readTimestamp_append, crcNumber]
  rcases record with ⟨key, value, timestamp⟩
  cases timestamp with
  | none =>
      simp [WalRecord.crc, WalRecord.timestampBytes, Hasher.finalize,
        Hasher.update, Hasher.newWithInitial]
  | some ts =>
      simp [WalRecord.crc, WalRecord.timestampBytes, Hasher.finalize,
        Hasher.update, Hasher.newWithInitial]

/-- A torn record ends the replay. -/
theorem nextRecord_torn (checksum : Checksum) (memory : Nat → UInt8)
    (rollingCrc : UInt32) {record : WalRecord} (valid : record.Valid)
    {torn missing : Bytes} (incomplete : missing ≠ [])
    (whole : torn ++ missing = record.bytes checksum rollingCrc) :
    nextRecord checksum memory rollingCrc torn = none := by
  cases read : nextRecord checksum memory rollingCrc torn with
  | none => rfl
  | some result =>
      rcases result with ⟨accepted, after⟩
      have longer := nextRecord_local checksum memory rollingCrc
        torn accepted after read missing
      have complete := nextRecord_bytes_append checksum memory
        rollingCrc valid []
      rw [List.append_nil, ← whole, longer] at complete
      simp only [Option.some.injEq, Prod.mk.injEq,
        List.append_eq_nil_iff] at complete
      exact absurd complete.2.2 incomplete

theorem eight_le_length_bytes (checksum : Checksum)
    (rollingCrc : UInt32) (record : WalRecord) :
    8 ≤ (record.bytes checksum rollingCrc).length := by
  simp only [WalRecord.bytes, List.length_append, length_leBytes]
  omega

end WriteAheadLog

end Cdoc
