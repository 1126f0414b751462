import Cdoc.WalFrames

/-!
# Damaged headers

The checksum of a record covers its key, its value and its timestamp, from
wherever the header says they are.  A log in which the header of a record
has been replaced replays to the transactions in front of the record, unless
the bytes at the new header happen to be frames up to a commit.

They can be so without any confusion of checksums: a header which divides
the same bytes elsewhere leaves what is hashed as it was.
-/

namespace Cdoc

open Cdoc.Foundation

namespace WriteAheadLog

/-! ## Logs with a damaged header -/

section Damage

variable (checksum : Checksum)

/-- Each transaction starts over with the checksum. -/
theorem encodeCommitted_eq {committed : List Committed}
    (transactions : ∀ entry ∈ committed, IsTransaction entry.records) :
    encodeCommitted checksum committed =
      encodeRecords checksum 0
        (committed.flatMap Committed.records) := by
  induction committed with
  | nil => rfl
  | cons entry entries induction =>
      rcases List.forall_mem_cons.mp transactions with ⟨head, tail⟩
      rw [List.flatMap_cons, encodeRecords_append,
        head.rollingAfter_eq_zero, ← induction tail]
      rfl

/-- The contents of a log with other bytes at the record behind `before`. -/
def damage (contents : Bytes) (before : List WalRecord)
    (header : Bytes) : Bytes :=
  File.overwrite contents (encodeRecords checksum 0 before).length header

/-- What stands behind the replaced header. -/
def behindHeader (before after : List WalRecord) (record : WalRecord) :
    Bytes :=
  record.hashed ++
    (leBytes 4 (record.crc checksum
      (rollingAfter checksum 0 before)).toNat ++
      encodeRecords checksum
        (record.nextCrc checksum (rollingAfter checksum 0 before)) after)

theorem damage_eq {contents : Bytes} {before after : List WalRecord}
    {record : WalRecord} {header : Bytes}
    (written : contents =
      encodeRecords checksum 0 (before ++ record :: after))
    (size : header.length = 4) :
    damage checksum contents before header =
      encodeRecords checksum 0 before ++
        (header ++ behindHeader checksum before after record) := by
  rw [damage, written, encodeRecords_append, encodeRecords_cons,
    WalRecord.bytes_eq_header_append, List.append_assoc,
    List.append_assoc, behindHeader, File.overwrite_middle]
  rw [WalRecord.length_header, size]

/-- What is hashed for successive records, each with its initial value. -/
def fed : UInt32 → List WalRecord → List (UInt32 × Bytes)
  | _, [] => []
  | rollingCrc, record :: records =>
      (rollingCrc, record.hashed) ::
        fed (record.nextCrc checksum rollingCrc) records

/-- The first frame has the header in front of the bytes. -/
theorem BeginsWith.header {rollingCrc : UInt32} {header rest : Bytes}
    {records : List WalRecord} (size : header.length = 4)
    (begins : BeginsWith checksum rollingCrc (header ++ rest) records) :
    ∃ first others, records = first :: others ∧ first.header = header := by
  rcases begins with ⟨-, framed, last, isLast, -⟩
  cases records with
  | nil => simp at isLast
  | cons first others =>
      refine ⟨first, others, rfl, ?_⟩
      rw [encodeFrames, WalRecord.frame, List.append_assoc] at framed
      have start : first.header <+: header ++ rest :=
        (List.prefix_append _ _).trans framed
      have taken := List.prefix_iff_eq_take.mp start
      rwa [first.length_header, List.take_left' size] at taken

/-- A header which announces a longer key than the file holds is found. -/
theorem BeginsWith.key_within {rollingCrc : UInt32} {header rest : Bytes}
    {records : List WalRecord} (size : header.length = 4)
    (begins : BeginsWith checksum rollingCrc (header ++ rest) records) :
    ofLeBytes (header.take 2) % 2 ^ 15 ≤ rest.length := by
  rcases begins.header checksum size with ⟨first, others, rfl, same⟩
  have small := (begins.readable first List.mem_cons_self).key_lt
  have announced : ofLeBytes (header.take 2) % 2 ^ 15 =
      first.key.length := by
    rw [← same, WalRecord.header, List.take_left' (length_leBytes 2 _),
      ofLeBytes_leBytes first.keyLen.toNat_lt, toNat_keyLen small]
    split <;> omega
  have frameWithin : first.frame checksum rollingCrc <+: header ++ rest :=
    (List.prefix_append _ _).trans begins.framed
  have length := frameWithin.length_le
  rw [announced]
  by_cases empty : first.key = []
  · simp [empty]
  · simp only [WalRecord.frame, if_neg empty, WalRecord.hashed,
      List.length_append, WalRecord.length_header, length_leBytes,
      size] at length
    omega

/-- Records read at another header are not those which were written. -/
theorem not_prefix_of_header {before after records result :
      List WalRecord} {record : WalRecord} {rollingCrc : UInt32}
    {header rest : Bytes} (size : header.length = 4)
    (different : header ≠ record.header)
    (begins : BeginsWith checksum rollingCrc (header ++ rest) records)
    (read : before ++ records <+: result) :
    ¬ result <+: before ++ record :: after := by
  intro kept
  rcases begins.header checksum size with ⟨first, others, rfl, same⟩
  have inside := (List.prefix_append_right_inj before).mp (read.trans kept)
  rw [List.cons_prefix_cons] at inside
  exact different (by rw [← same, inside.1])

end Damage

namespace Logged

variable (checksum : Checksum)

theorem Coherent.contents_eq {state : Logged}
    (coherent : Coherent checksum state)
    (closed : state.history.pending = []) :
    state.log.file.contents =
      encodeRecords checksum 0
        (state.history.committed.flatMap Committed.records) := by
  rw [coherent.contents, closed, encodeRecords_nil, List.append_nil,
    encodeCommitted_eq checksum coherent.transactions]

theorem Coherent.allValid {state : Logged}
    (coherent : Coherent checksum state) :
    AllValid (state.history.committed.flatMap Committed.records) := by
  intro record member
  rcases List.mem_flatMap.mp member with ⟨entry, inside, isRecord⟩
  exact (coherent.transactions entry inside).valid record isRecord

/--
A log of committed transactions in which the header of a record has been
replaced.  Replay gives the transactions in front of the record as long as
no frames up to a commit stand at the new header.  Where such frames do
stand there, they are taken for committed records.
-/
theorem replay_of_damagedHeader (memory : Nat → Nat → UInt8)
    {calls : List Call} (valid : ∀ call ∈ calls, call.Valid)
    {final : Logged} (ran : run checksum calls = .ok final)
    (closed : final.history.pending = [])
    {before after : List WalRecord} {record : WalRecord}
    (log : final.history.committed.flatMap Committed.records =
      before ++ record :: after)
    {header : Bytes} (size : header.length = 4)
    (different : header ≠ record.header) :
    ((∀ records, ¬ BeginsWith checksum (rollingAfter checksum 0 before)
          (header ++ behindHeader checksum before after record) records) →
        replay checksum memory
            (damage checksum final.log.file.contents before header) =
          .ok (final.history.committedWithin
            (encodeRecords checksum 0 before).length) ∧
        final.history.committedWithin
            (encodeRecords checksum 0 before).length <+:
          before ++ record :: after) ∧
      ∀ records, AllValid records →
        BeginsWith checksum (rollingAfter checksum 0 before)
          (header ++ behindHeader checksum before after record) records →
        ∃ result,
          replay checksum memory
              (damage checksum final.log.file.contents before header) =
            .ok result ∧
          before ++ records <+: result ∧
          ¬ result <+: before ++ record :: after := by
  obtain ⟨reached, done, coherent⟩ := run_coherent checksum valid
  rw [ran] at done
  cases done
  have written := coherent.contents_eq checksum closed
  have logValid := coherent.allValid checksum
  rw [log] at written logValid
  have beforeValid : AllValid before := fun other member =>
    logValid other (List.mem_append_left _ member)
  rw [damage_eq checksum written size]
  constructor
  · intro nothing
    rcases replay_append_of_nothing checksum memory beforeValid
      nothing with ⟨kept, inside, alone, damaged⟩
    have front : encodeRecords checksum 0 before <+:
        final.log.file.contents := by
      rw [written, encodeRecords_append]
      exact List.prefix_append _ _
    rw [coherent.replay_within checksum memory front] at alone
    rw [damaged, Except.ok.inj alone]
    exact ⟨rfl, inside.trans (List.prefix_append _ _)⟩
  · intro records recordsValid begins
    rcases replay_append_of_frames checksum memory beforeValid
      recordsValid begins with ⟨result, damaged, read⟩
    exact ⟨result, damaged, read,
      not_prefix_of_header checksum size different begins read⟩

/--
A header which points beyond the file, and one which divides the bytes of
the record elsewhere.
-/
theorem replay_of_damagedHeader_first :
    ∃ final, run crc32
        [.writeRecord [1, 2] [3] none, .writeCommit ⟨7⟩] = .ok final ∧
      replay crc32 (fun _ _ => 0) (damage crc32 final.log.file.contents []
          [255, 0, 0, 0]) = .ok [] ∧
      ∃ result,
        replay crc32 (fun _ _ => 0) (damage crc32
          final.log.file.contents [] [1, 0, 2, 0]) = .ok result ∧
        [⟨[1], [2, 3], none⟩, ⟨[], [], some ⟨7⟩⟩] <+: result := by
  have valid : ∀ call ∈ [Call.writeRecord [1, 2] [3] none,
      .writeCommit ⟨7⟩], call.Valid := by
    intro call member
    simp only [List.mem_cons, List.not_mem_nil, or_false] at member
    rcases member with rfl | rfl
    · exact Or.inl (by decide)
    · trivial
  obtain ⟨final, ran, closed, log, nothing⟩ : ∃ final, run crc32
      [.writeRecord [1, 2] [3] none, .writeCommit ⟨7⟩] = .ok final ∧
        final.history.pending = [] ∧
        final.history.committed.flatMap Committed.records =
          [] ++ ⟨[1, 2], [3], none⟩ :: [⟨[], [], some ⟨7⟩⟩] ∧
        final.history.committedWithin 0 = [] :=
    ⟨_, rfl, rfl, rfl, by decide +kernel⟩
  have damaged {header : Bytes} (size : header.length = 4) :=
    replay_of_damagedHeader crc32 (fun _ _ => 0) valid ran closed log size
  refine ⟨final, ran, ?_, ?_⟩
  · have beyond := (@damaged [255, 0, 0, 0] rfl (by decide)).1
    rw [encodeRecords_nil, List.length_nil, nothing] at beyond
    refine (beyond fun records begins => ?_).1
    exact absurd (begins.key_within crc32 rfl) (by decide)
  · have divided := (@damaged [1, 0, 2, 0] rfl (by decide)).2
      [⟨[1], [2, 3], none⟩, ⟨[], [], some ⟨7⟩⟩]
    have allValid : AllValid
        [⟨[1], [2, 3], none⟩, ⟨[], [], some ⟨7⟩⟩] := by
      intro record member
      simp only [List.mem_cons, List.not_mem_nil, or_false] at member
      rcases member with rfl | rfl
      · exact Or.inl (by decide)
      · exact Or.inr ⟨rfl, rfl⟩
    obtain ⟨result, replayed, read, -⟩ := divided allValid {
      readable := fun record member => (allValid record member).readable
      framed := by decide +kernel
      commits := ⟨_, rfl, rfl⟩ }
    exact ⟨result, replayed, read⟩

/-- Key and value divided elsewhere, with no two checksums confused. -/
theorem replay_dividedElsewhere_first :
    ∃ final, run crc32
        [.writeRecord [1, 2] [3] none, .writeCommit ⟨7⟩] = .ok final ∧
      final.history.committed.flatMap Committed.records =
        [⟨[1, 2], [3], none⟩, ⟨[], [], some ⟨7⟩⟩] ∧
      WalRecord.header ⟨[1, 2], [3], none⟩ = [2, 0, 1, 0] ∧
      replay crc32 (fun _ _ => 0) (damage crc32 final.log.file.contents []
          [1, 0, 2, 0]) =
        .ok [⟨[1], [2, 3], none⟩, ⟨[], [], some ⟨7⟩⟩] ∧
      fed crc32 0 [⟨[1], [2, 3], none⟩, ⟨[], [], some ⟨7⟩⟩] =
        fed crc32 0 [⟨[1, 2], [3], none⟩, ⟨[], [], some ⟨7⟩⟩] ∧
      ((fed crc32 0 [⟨[1, 2], [3], none⟩, ⟨[], [], some ⟨7⟩⟩]).map
        fun entry => crc32 entry.1 entry.2).Nodup ∧
      ¬ [⟨[1], [2, 3], none⟩, ⟨[], [], some ⟨7⟩⟩] <+:
        final.history.committed.flatMap Committed.records := by
  refine ⟨_, rfl, rfl, by decide, ?_, by decide +kernel,
    by decide +kernel, ?_⟩
  · decide +kernel
  · decide +kernel

end Logged

end WriteAheadLog

end Cdoc
