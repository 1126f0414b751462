import Mathlib.Data.List.Induction
import Cdoc.WalFormat

/-!
# The law of the log

A log is used through four calls: writing a record, writing a commit,
truncating to the last commit and resetting.  Beside the log, `History`
keeps what was asked for: the committed transactions since the last reset,
each with the end of its commit record in the file, and the records of the
open transaction.

Whatever the calls were, replaying any prefix of the file gives the
transactions whose commit record ends inside the prefix.
-/

namespace Cdoc

open Cdoc.Foundation

namespace WriteAheadLog

/-! ## Sequences of records -/

section Sequences

variable (checksum : Checksum)

/-- The bytes of successive records. -/
def encodeRecords : UInt32 → List WalRecord → Bytes
  | _, [] => []
  | rollingCrc, record :: records =>
      record.bytes checksum rollingCrc ++
        encodeRecords (record.nextCrc checksum rollingCrc) records

/-- The checksum which a record behind the given ones continues. -/
def rollingAfter (rollingCrc : UInt32) (records : List WalRecord) :
    UInt32 :=
  records.foldl (fun rolling record => record.nextCrc checksum rolling)
    rollingCrc

@[simp]
theorem encodeRecords_nil (rollingCrc : UInt32) :
    encodeRecords checksum rollingCrc [] = [] :=
  rfl

@[simp]
theorem encodeRecords_cons (rollingCrc : UInt32) (record : WalRecord)
    (records : List WalRecord) :
    encodeRecords checksum rollingCrc (record :: records) =
      record.bytes checksum rollingCrc ++
        encodeRecords checksum (record.nextCrc checksum rollingCrc)
          records :=
  rfl

theorem encodeRecords_append (rollingCrc : UInt32)
    (left right : List WalRecord) :
    encodeRecords checksum rollingCrc (left ++ right) =
      encodeRecords checksum rollingCrc left ++
        encodeRecords checksum (rollingAfter checksum rollingCrc left)
          right := by
  induction left generalizing rollingCrc with
  | nil => rfl
  | cons head tail induction =>
      simp only [List.cons_append, encodeRecords_cons, induction,
        List.append_assoc]
      rfl

/-- The log with the records of a transaction appended. -/
theorem rollingAfter_concat (rollingCrc : UInt32)
    (records : List WalRecord) (last : WalRecord) :
    rollingAfter checksum rollingCrc (records ++ [last]) =
      last.nextCrc checksum (rollingAfter checksum rollingCrc records) := by
  simp [rollingAfter]

end Sequences

/-! ## Replaying sequences of records -/

/-- Records which the framing can represent. -/
def AllValid (records : List WalRecord) : Prop :=
  ∀ record ∈ records, record.Valid

theorem AllValid.head {head : WalRecord} {tail : List WalRecord}
    (valid : AllValid (head :: tail)) : head.Valid :=
  valid head List.mem_cons_self

theorem AllValid.tail {head : WalRecord} {tail : List WalRecord}
    (valid : AllValid (head :: tail)) : AllValid tail :=
  fun record member => valid record (List.mem_cons_of_mem _ member)

theorem AllValid.append {left right : List WalRecord}
    (leftValid : AllValid left) (rightValid : AllValid right) :
    AllValid (left ++ right) := by
  intro record member
  rcases List.mem_append.mp member with inside | inside
  · exact leftValid record inside
  · exact rightValid record inside

section Replaying

variable (checksum : Checksum) (memory : Nat → Nat → UInt8)

/-- A whole record is accepted. -/
theorem replayLoop_record (state : Replay) {record : WalRecord}
    (valid : record.Valid) (after : Bytes) (rounds : Nat)
    (rest : state.rest =
      record.bytes checksum state.rollingCrc ++ after) :
    replayLoop checksum memory (rounds + 1) state =
      replayLoop checksum memory rounds
        (state.push record (record.crc checksum state.rollingCrc)
          after) := by
  have long := eight_le_length_bytes checksum state.rollingCrc record
  have nonempty : state.rest.isEmpty = false := by
    rw [rest]
    cases bytes : record.bytes checksum state.rollingCrc with
    | nil => simp [bytes] at long
    | cons => rfl
  rw [replayLoop, nonempty, rest,
    nextRecord_bytes_append checksum _ _ valid]
  rfl

/-- A record without a timestamp leaves the last commit where it was. -/
theorem push_of_update (state : Replay) {record : WalRecord}
    (update : record.timestamp = none) (after : Bytes) :
    state.push record (record.crc checksum state.rollingCrc) after =
      { state with
        rest := after
        records := state.records ++ [record]
        rollingCrc := record.nextCrc checksum state.rollingCrc } := by
  simp [Replay.push, WalRecord.nextCrc, update]

/-- No record of the list which commits is complete inside the bytes. -/
def NoCommitInside (rollingCrc : UInt32) (records : List WalRecord)
    (bytes : Bytes) : Prop :=
  ∀ before commit after, records = before ++ commit :: after →
    commit.timestamp.isSome = true →
      bytes.length <
        (encodeRecords checksum rollingCrc (before ++ [commit])).length

/-- A complete record in front of the others does not commit. -/
theorem NoCommitInside.head {rollingCrc : UInt32} {record : WalRecord}
    {records : List WalRecord} {after : Bytes}
    (unfinished : NoCommitInside checksum rollingCrc (record :: records)
      (record.bytes checksum rollingCrc ++ after)) :
    record.timestamp = none := by
  by_contra commits
  have inside := unfinished [] record records rfl
    (Option.isSome_iff_ne_none.mpr commits)
  simp only [List.nil_append, encodeRecords_cons, encodeRecords_nil,
    List.append_nil, List.length_append] at inside
  omega

theorem NoCommitInside.tail {rollingCrc : UInt32} {record : WalRecord}
    {records : List WalRecord} {after : Bytes}
    (unfinished : NoCommitInside checksum rollingCrc (record :: records)
      (record.bytes checksum rollingCrc ++ after)) :
    NoCommitInside checksum (record.nextCrc checksum rollingCrc) records
      after := by
  intro before commit rest split commits
  have inside := unfinished (record :: before) commit rest
    (by rw [split]; rfl) commits
  rw [List.cons_append, encodeRecords_cons, List.length_append,
    List.length_append] at inside
  omega

/-- The loop stops at an empty rest and at a torn record. -/
theorem replayLoop_torn (state : Replay) {record : WalRecord}
    (valid : record.Valid) {lost : Bytes} (incomplete : lost ≠ [])
    (torn : state.rest ++ lost = record.bytes checksum state.rollingCrc)
    (rounds : Nat) :
    replayLoop checksum memory (rounds + 1) state = .ok state := by
  rw [replayLoop]
  by_cases empty : state.rest = []
  · simp [empty]
  · rw [nextRecord_torn checksum _ _ valid incomplete torn]
    simp [empty]

/-- What has been kept of two pieces holds the first one or a part of it. -/
theorem complete_or_torn {kept missing first others : Bytes}
    (whole : kept ++ missing = first ++ others) :
    (∃ after, kept = first ++ after) ∨
      ∃ lost, lost ≠ [] ∧ kept ++ lost = first := by
  rcases List.append_eq_append_iff.mp whole with
    ⟨lost, torn, -⟩ | ⟨after, shape, -⟩
  · by_cases empty : lost = []
    · exact .inl ⟨[], by simp [torn, empty]⟩
    · exact .inr ⟨lost, empty, torn.symm⟩
  · exact .inl ⟨after, shape⟩

/-- Without a complete commit the records read so far stay uncommitted. -/
theorem replayLoop_unfinished {records : List WalRecord}
    (valid : AllValid records) (state : Replay) {missing : Bytes}
    (whole : state.rest ++ missing =
      encodeRecords checksum state.rollingCrc records)
    (unfinished : NoCommitInside checksum state.rollingCrc records
      state.rest)
    {rounds : Nat} (enough : state.rest.length < rounds) :
    ∃ final others,
      replayLoop checksum memory rounds state = .ok final ∧
        final.lastCommitPos = state.lastCommitPos ∧
        final.records = state.records ++ others := by
  induction records generalizing state rounds with
  | nil =>
      rcases Nat.exists_eq_succ_of_ne_zero (Nat.ne_zero_of_lt enough) with
        ⟨rounds, rfl⟩
      have empty : state.rest = [] := by
        rw [encodeRecords_nil, List.append_eq_nil_iff] at whole
        exact whole.1
      exact ⟨state, [], by simp [replayLoop, empty], rfl, by simp⟩
  | cons record records induction =>
      rcases Nat.exists_eq_succ_of_ne_zero (Nat.ne_zero_of_lt enough) with
        ⟨rounds, rfl⟩
      rw [encodeRecords_cons] at whole
      rcases complete_or_torn whole with
        ⟨after, shape⟩ | ⟨lost, incomplete, torn⟩
      · -- the record is complete, hence it does not commit
        have long :=
          eight_le_length_bytes checksum state.rollingCrc record
        rw [shape] at unfinished
        rw [shape, List.append_assoc] at whole
        rw [shape, List.length_append] at enough
        rw [replayLoop_record checksum memory state valid.head after
          rounds shape, push_of_update checksum state unfinished.head]
        obtain ⟨final, others, done, last, collected⟩ :=
          induction valid.tail
            { state with
              rest := after
              records := state.records ++ [record]
              rollingCrc := record.nextCrc checksum state.rollingCrc }
            (List.append_cancel_left whole) unfinished.tail
            (show after.length < rounds by omega)
        exact ⟨final, record :: others, done, last, by simp [collected]⟩
      · -- the record is torn or not begun
        exact ⟨state, [], replayLoop_torn checksum memory state
          valid.head incomplete torn rounds, rfl, by simp⟩

/-- What has been committed before is all that is kept. -/
theorem replayLoop_collected {records : List WalRecord}
    (valid : AllValid records) {bytes missing : Bytes}
    (whole : bytes ++ missing = encodeRecords checksum 0 records)
    (unfinished : NoCommitInside checksum 0 records bytes)
    (collected : List WalRecord) {rounds : Nat}
    (enough : bytes.length < rounds) :
    ∃ final,
      replayLoop checksum memory rounds
          ⟨bytes, collected, collected.length, 0⟩ = .ok final ∧
        final.records.take final.lastCommitPos = collected := by
  obtain ⟨final, others, done, last, records⟩ :=
    replayLoop_unfinished checksum memory valid
      ⟨bytes, collected, collected.length, 0⟩ whole unfinished enough
  exact ⟨final, done, by simp [last, records]⟩

/-- Written records are read back, and the last commit is among them. -/
theorem replayLoop_records {records : List WalRecord} (valid : AllValid records)
    (collected : List WalRecord) (position : Nat) (rollingCrc : UInt32) :
    ∃ last,
      (position ≤ collected.length →
        last ≤ (collected ++ records).length) ∧
      ((∃ commit ∈ records.getLast?, commit.timestamp.isSome = true) →
        last = (collected ++ records).length) ∧
      ∀ after rounds,
        replayLoop checksum memory (rounds + records.length)
            ⟨encodeRecords checksum rollingCrc records ++ after,
              collected, position, rollingCrc⟩ =
          replayLoop checksum memory rounds
            ⟨after, collected ++ records, last,
              rollingAfter checksum rollingCrc records⟩ := by
  induction records using List.reverseRecOn with
  | nil =>
      exact ⟨position, by simp, by simp, by simp [rollingAfter]⟩
  | append_singleton records record induction =>
      rcases induction fun other inside =>
          valid other (List.mem_append_left _ inside) with
        ⟨last, bound, -, runs⟩
      have recordValid : record.Valid := valid record (by simp)
      refine ⟨if record.timestamp.isSome then
          (collected ++ (records ++ [record])).length else last,
        ?_, ?_, ?_⟩
      · intro within
        have before := bound within
        simp only [List.length_append] at before ⊢
        split <;> omega
      · rintro ⟨commit, isLast, commits⟩
        rw [List.getLast?_append, List.getLast?_singleton,
          Option.some_or, Option.mem_some_iff] at isLast
        rw [isLast, if_pos commits]
      · intro after rounds
        rw [List.length_append, List.length_singleton,
          Nat.add_comm records.length, ← Nat.add_assoc,
          encodeRecords_append, encodeRecords_cons, encodeRecords_nil,
          List.append_nil, List.append_assoc, runs,
          replayLoop_record checksum memory _ recordValid after rounds
            rfl, rollingAfter_concat]
        unfold Replay.push WalRecord.nextCrc
        split <;> simp

end Replaying

/-! ## Committed transactions -/

/-- Updates closed by a record with a timestamp. -/
structure IsTransaction (records : List WalRecord) : Prop where
  valid : AllValid records
  shape : ∃ updates commit, records = updates ++ [commit] ∧
    (∀ record ∈ updates, record.timestamp = none) ∧
    commit.timestamp.isSome = true

/-- A transaction and the end of its commit record in the file. -/
structure Committed where
  records : List WalRecord
  stop : Nat
deriving DecidableEq, Repr

section Transactions

variable (checksum : Checksum)

/-- The bytes of committed transactions. -/
def encodeCommitted (committed : List Committed) : Bytes :=
  committed.flatMap fun entry => encodeRecords checksum 0 entry.records

/-- The ends are the positions behind the encoded transactions. -/
def Ends : Nat → List Committed → Prop
  | _, [] => True
  | start, entry :: entries =>
      entry.stop =
          start + (encodeRecords checksum 0 entry.records).length ∧
        Ends entry.stop entries

theorem Ends.le {start : Nat} {committed : List Committed}
    (ends : Ends checksum start committed) :
    ∀ entry ∈ committed, start ≤ entry.stop := by
  induction committed generalizing start with
  | nil => simp
  | cons head tail induction =>
      rcases ends with ⟨headStop, tailEnds⟩
      intro entry member
      rcases List.mem_cons.mp member with rfl | inTail
      · omega
      · have later := induction tailEnds entry inTail
        omega

/-- No transaction lies inside bytes which end before the first stop. -/
theorem Ends.filter_eq_nil {start cut : Nat} {head : Committed}
    {tail : List Committed}
    (ends : Ends checksum start (head :: tail)) (before : cut < head.stop) :
    (head :: tail).filter (fun entry => entry.stop ≤ cut) = [] := by
  rw [List.filter_eq_nil_iff]
  intro entry member
  have later : head.stop ≤ entry.stop := by
    rcases List.mem_cons.mp member with rfl | inTail
    · exact le_refl _
    · exact ends.2.le checksum entry inTail
  simp only [decide_eq_true_eq, not_le]
  exact before.trans_le later

theorem Ends.stop_le {start : Nat} {committed : List Committed}
    (ends : Ends checksum start committed) :
    ∀ entry ∈ committed,
      entry.stop ≤
        start + (encodeCommitted checksum committed).length := by
  induction committed generalizing start with
  | nil => simp
  | cons head tail induction =>
      rcases ends with ⟨headStop, tailEnds⟩
      intro entry member
      rw [encodeCommitted, List.flatMap_cons, List.length_append]
      rcases List.mem_cons.mp member with rfl | inTail
      · omega
      · have later := induction tailEnds entry inTail
        rw [encodeCommitted] at later
        omega

theorem Ends.concat {start : Nat} {committed : List Committed}
    (ends : Ends checksum start committed) {entry : Committed}
    (stop : entry.stop =
      start + (encodeCommitted checksum committed).length +
        (encodeRecords checksum 0 entry.records).length) :
    Ends checksum start (committed ++ [entry]) := by
  induction committed generalizing start with
  | nil =>
      simp only [encodeCommitted, List.flatMap_nil, List.length_nil,
        Nat.add_zero] at stop
      exact ⟨stop, trivial⟩
  | cons head tail induction =>
      rcases ends with ⟨headStop, tailEnds⟩
      refine ⟨headStop, induction tailEnds ?_⟩
      simp only [encodeCommitted, List.flatMap_cons,
        List.length_append] at stop ⊢
      omega

theorem length_le_length_encodeRecords (rollingCrc : UInt32)
    (records : List WalRecord) :
    records.length ≤
      (encodeRecords checksum rollingCrc records).length := by
  induction records generalizing rollingCrc with
  | nil => simp
  | cons head tail induction =>
      have long := eight_le_length_bytes checksum rollingCrc head
      have others := induction (head.nextCrc checksum rollingCrc)
      rw [encodeRecords_cons, List.length_append, List.length_cons]
      omega

/-- The record which commits a transaction is its last one. -/
theorem IsTransaction.noCommitInside {records : List WalRecord}
    (transaction : IsTransaction records) {bytes : Bytes}
    (shorter : bytes.length < (encodeRecords checksum 0 records).length) :
    NoCommitInside checksum 0 records bytes := by
  rcases transaction with ⟨-, updates, last, rfl, areUpdates, -⟩
  intro before commit after split commits
  rcases List.eq_nil_or_concat after with rfl | ⟨others, final, rfl⟩
  · rwa [← split]
  · rw [List.concat_eq_append, ← List.cons_append,
      ← List.append_assoc] at split
    have sameUpdates := (List.append_inj' split rfl).1
    have update := areUpdates commit (by simp [sameUpdates])
    simp [update] at commits

theorem IsTransaction.rollingAfter_eq_zero {records : List WalRecord}
    (transaction : IsTransaction records) :
    rollingAfter checksum 0 records = 0 := by
  rcases transaction with ⟨-, updates, commit, rfl, -, commits⟩
  rw [rollingAfter_concat, WalRecord.nextCrc, if_pos commits]

/-- A complete transaction is accepted and becomes the last commit. -/
theorem replayLoop_transaction (memory : Nat → Nat → UInt8)
    {records : List WalRecord} (transaction : IsTransaction records)
    (collected : List WalRecord) (lastCommitPos : Nat) (after : Bytes)
    (rounds : Nat) :
    replayLoop checksum memory (rounds + records.length)
        ⟨encodeRecords checksum 0 records ++ after, collected,
          lastCommitPos, 0⟩ =
      replayLoop checksum memory rounds
        ⟨after, collected ++ records,
          (collected ++ records).length, 0⟩ := by
  rcases replayLoop_records checksum memory transaction.valid collected
    lastCommitPos 0 with ⟨last, -, atEnd, runs⟩
  rcases transaction.shape with ⟨updates, commit, shape, -, commits⟩
  have committed : last = (collected ++ records).length :=
    atEnd ⟨commit, by simp [shape], commits⟩
  rw [runs, committed, transaction.rollingAfter_eq_zero]

/--
Replaying any part of a log: the transactions which end inside it, behind
what has been collected before.
-/
theorem replayLoop_committed (memory : Nat → Nat → UInt8)
    {committed : List Committed}
    (transactions : ∀ entry ∈ committed, IsTransaction entry.records)
    {start : Nat} (ends : Ends checksum start committed)
    {pending : List WalRecord} (pendingValid : AllValid pending)
    (areUpdates : ∀ record ∈ pending, record.timestamp = none)
    {bytes : Bytes}
    (within : bytes <+: encodeCommitted checksum committed ++
      encodeRecords checksum 0 pending)
    (collected : List WalRecord) {rounds : Nat}
    (enough : bytes.length < rounds) :
    ∃ final,
      replayLoop checksum memory rounds
          ⟨bytes, collected, collected.length, 0⟩ = .ok final ∧
        final.records.take final.lastCommitPos =
          collected ++
            (committed.filter
              (fun entry => entry.stop ≤ start + bytes.length)).flatMap
              Committed.records := by
  induction committed generalizing start bytes collected rounds with
  | nil =>
      rcases within with ⟨missing, whole⟩
      have unfinished : NoCommitInside checksum 0 pending bytes := by
        intro before commit after split commits
        have update := areUpdates commit (by simp [split])
        simp [update] at commits
      obtain ⟨final, done, kept⟩ := replayLoop_collected checksum memory
        pendingValid whole unfinished collected enough
      exact ⟨final, done, by simp [kept]⟩
  | cons head tail induction =>
      have headTransaction := transactions head List.mem_cons_self
      have tailTransactions : ∀ entry ∈ tail,
          IsTransaction entry.records :=
        fun entry member =>
          transactions entry (List.mem_cons_of_mem _ member)
      rcases ends with ⟨headStop, tailEnds⟩
      have shape : encodeCommitted checksum (head :: tail) ++
          encodeRecords checksum 0 pending =
            encodeRecords checksum 0 head.records ++
              (encodeCommitted checksum tail ++
                encodeRecords checksum 0 pending) := by
        simp [encodeCommitted]
      rw [shape] at within
      rcases within with ⟨missing, whole⟩
      rcases complete_or_torn whole with
        ⟨after, rfl⟩ | ⟨lost, incomplete, torn⟩
      · rw [List.append_assoc] at whole
        have short :=
          length_le_length_encodeRecords checksum 0 head.records
        have shift : start +
            (encodeRecords checksum 0 head.records ++ after).length =
              head.stop + after.length := by
          rw [headStop, List.length_append]
          omega
        rw [List.length_append] at enough
        obtain ⟨rounds, rfl⟩ : ∃ others,
            rounds = others + head.records.length :=
          ⟨rounds - head.records.length, by omega⟩
        rw [replayLoop_transaction checksum memory headTransaction]
        obtain ⟨final, done, records⟩ :=
          induction tailTransactions tailEnds
            ⟨missing, List.append_cancel_left whole⟩
            (collected ++ head.records)
            (show after.length < rounds by omega)
        refine ⟨final, done, ?_⟩
        rw [records, shift, List.filter_cons_of_pos (by simp),
          List.flatMap_cons, List.append_assoc]
      · have short : bytes.length <
            (encodeRecords checksum 0 head.records).length := by
          rw [← torn, List.length_append]
          exact Nat.lt_add_of_pos_right (List.length_pos_iff.mpr incomplete)
        obtain ⟨final, done, kept⟩ := replayLoop_collected checksum memory
          headTransaction.valid torn
          (headTransaction.noCommitInside checksum short) collected enough
        have outside : (head :: tail).filter
            (fun entry => entry.stop ≤ start + bytes.length) = [] :=
          Ends.filter_eq_nil checksum ⟨headStop, tailEnds⟩ (by omega)
        exact ⟨final, done, by simp [kept, outside]⟩

end Transactions

/-! ## Calls and their history -/

/-- A call of the log. -/
inductive Call where
  | writeRecord (key value : Bytes) (commit : Option Timestamp)
  | writeCommit (ts : Timestamp)
  | truncateToLastCommit
  | reset
deriving DecidableEq, Repr

namespace Call

/-- A call is made. -/
def run (checksum : Checksum) : Call → Io WriteAheadLog Unit
  | .writeRecord key value commit =>
      WriteAheadLog.writeRecord checksum key value commit
  | .writeCommit ts => WriteAheadLog.writeCommit checksum ts
  | .truncateToLastCommit => WriteAheadLog.truncateToLastCommit
  | .reset => WriteAheadLog.reset

/-- Only records which the framing can represent are written. -/
def Valid : Call → Prop
  | .writeRecord key value commit => WalRecord.Valid ⟨key, value, commit⟩
  | _ => True

end Call

/-- What the calls have asked the log to hold. -/
structure History where
  committed : List Committed
  pending : List WalRecord
deriving DecidableEq, Repr

namespace History

/-- A record joins the open transaction, or closes it at `stop`. -/
def record (history : History) (entry : WalRecord) (stop : Nat) :
    History :=
  if entry.timestamp.isSome then
    ⟨history.committed ++ [⟨history.pending ++ [entry], stop⟩], []⟩
  else
    ⟨history.committed, history.pending ++ [entry]⟩

/-- The history after a call which left the file at the given length. -/
def after (history : History) (length : Nat) : Call → History
  | .writeRecord key value commit =>
      history.record ⟨key, value, commit⟩ length
  | .writeCommit ts => history.record ⟨[], [], some ts⟩ length
  | .truncateToLastCommit => ⟨history.committed, []⟩
  | .reset => ⟨[], []⟩

/-- The records of the transactions which end within a length. -/
def committedWithin (history : History) (length : Nat) :
    List WalRecord :=
  (history.committed.filter
    (fun entry => entry.stop ≤ length)).flatMap Committed.records

end History

/-- A log together with its history. -/
structure Logged where
  log : WriteAheadLog
  history : History

namespace Logged

variable (checksum : Checksum)

/-- A log which has just been created. -/
def created : Logged :=
  ⟨WriteAheadLog.create, [], []⟩

/-- The log and its history after a call. -/
def step (state : Logged) (call : Call) : Except IoError Logged :=
  match call.run checksum state.log with
  | .ok _ log =>
      .ok ⟨log, state.history.after log.file.contents.length call⟩
  | .error failure _ => .error failure

/-- The log and its history after a list of calls. -/
def run (calls : List Call) : Except IoError Logged :=
  calls.foldlM (step checksum) created

/--
The file holds the committed transactions and the open one, and the log
knows where the former end and which checksum the latter has reached.
-/
structure Coherent (state : Logged) : Prop where
  sound : state.log.file.fault = none
  atEnd : state.log.file.AtEnd
  contents : state.log.file.contents =
    encodeCommitted checksum state.history.committed ++
      encodeRecords checksum 0 state.history.pending
  lastCommitPos : state.log.lastCommitPos =
    (encodeCommitted checksum state.history.committed).length
  rollingCrc : state.log.rollingCrc =
    rollingAfter checksum 0 state.history.pending
  transactions : ∀ entry ∈ state.history.committed,
    IsTransaction entry.records
  ends : Ends checksum 0 state.history.committed
  pendingValid : AllValid state.history.pending
  areUpdates : ∀ record ∈ state.history.pending, record.timestamp = none

theorem created_coherent : Coherent checksum created where
  sound := rfl
  atEnd := rfl
  contents := rfl
  lastCommitPos := rfl
  rollingCrc := rfl
  transactions := by simp [created]
  ends := trivial
  pendingValid := by simp [created, AllValid]
  areUpdates := by simp [created]

/-- The open transaction with the given record is the next transaction. -/
theorem Coherent.isTransaction {state : Logged}
    (coherent : Coherent checksum state) {record : WalRecord}
    (valid : record.Valid) (commits : record.timestamp.isSome = true) :
    IsTransaction (state.history.pending ++ [record]) where
  valid := coherent.pendingValid.append (by simpa [AllValid] using valid)
  shape := ⟨_, record, rfl, coherent.areUpdates, commits⟩

/-- The file behind an appended record. -/
theorem Coherent.appendRecord_contents {state : Logged}
    (coherent : Coherent checksum state) (record : WalRecord) :
    (state.log.appendRecord checksum record).file.contents =
      encodeCommitted checksum state.history.committed ++
        encodeRecords checksum 0
          (state.history.pending ++ [record]) := by
  simp only [WriteAheadLog.appendRecord, File.appended,
    coherent.contents, encodeRecords_append, coherent.rollingCrc,
    encodeRecords_cons, encodeRecords_nil, List.append_nil,
    List.append_assoc]

/-- Writing a record keeps log and history in step. -/
theorem Coherent.appendRecord {state : Logged}
    (coherent : Coherent checksum state) {record : WalRecord}
    (valid : record.Valid) :
    Coherent checksum
      ⟨state.log.appendRecord checksum record,
        state.history.record record
          (state.log.appendRecord checksum
            record).file.contents.length⟩ := by
  have contents := coherent.appendRecord_contents checksum record
  have atEnd : (state.log.appendRecord checksum record).file.AtEnd :=
    coherent.atEnd.appended _ _
  cases commits : record.timestamp.isSome with
  | true =>
      simp only [History.record, commits, if_true]
      exact {
        sound := rfl
        atEnd := atEnd
        contents := by
          simp [contents, encodeCommitted]
        lastCommitPos := by
          have position : (state.log.appendRecord checksum
              record).lastCommitPos =
              (state.log.appendRecord checksum
                record).file.position := by
            simp [WriteAheadLog.appendRecord, commits, File.appended]
          rw [position, atEnd, contents]
          simp [encodeCommitted]
        rollingCrc := by
          simp [WriteAheadLog.appendRecord, WalRecord.nextCrc, commits,
            rollingAfter]
        transactions := by
          intro entry member
          rcases List.mem_append.mp member with before | last
          · exact coherent.transactions entry before
          · rw [List.mem_singleton.mp last]
            exact coherent.isTransaction checksum valid commits
        ends := by
          apply coherent.ends.concat
          rw [contents, List.length_append, Nat.zero_add]
        pendingValid := by simp [AllValid]
        areUpdates := by simp }
  | false =>
      have update : record.timestamp = none := by
        simpa using commits
      simp only [History.record, commits, Bool.false_eq_true, if_false]
      exact {
        sound := rfl
        atEnd := atEnd
        contents := contents
        lastCommitPos := by
          simp [WriteAheadLog.appendRecord, commits,
            coherent.lastCommitPos]
        rollingCrc := by
          simp [WriteAheadLog.appendRecord, coherent.rollingCrc,
            rollingAfter_concat]
        transactions := coherent.transactions
        ends := coherent.ends
        pendingValid :=
          coherent.pendingValid.append (by simpa [AllValid] using valid)
        areUpdates := by
          intro other member
          rcases List.mem_append.mp member with before | last
          · exact coherent.areUpdates other before
          · rw [List.mem_singleton.mp last]
            exact update }

/-- Truncation drops the open transaction and nothing else. -/
theorem Coherent.truncate {state : Logged}
    (coherent : Coherent checksum state) :
    ∃ log, truncateToLastCommit state.log = .ok () log ∧
      Coherent checksum ⟨log, state.history.committed, []⟩ := by
  refine ⟨⟨⟨encodeCommitted checksum state.history.committed,
    (encodeCommitted checksum state.history.committed).length, none⟩,
    (encodeCommitted checksum state.history.committed).length, 0⟩,
    ?_, ?_⟩
  · rw [truncateToLastCommit_eq, coherent.lastCommitPos,
      coherent.contents, File.resize_append_length, coherent.sound]
  · exact {
      sound := rfl
      atEnd := rfl
      contents := by simp
      lastCommitPos := rfl
      rollingCrc := rfl
      transactions := coherent.transactions
      ends := coherent.ends
      pendingValid := by simp [AllValid]
      areUpdates := by simp }

theorem Coherent.reset {state : Logged}
    (coherent : Coherent checksum state) :
    WriteAheadLog.reset state.log = .ok () WriteAheadLog.create := by
  rw [reset_eq, coherent.sound]
  rfl

/-- No call fails on a sound device, and each keeps the coherence. -/
theorem step_coherent {state : Logged}
    (coherent : Coherent checksum state) {call : Call}
    (valid : call.Valid) :
    ∃ next, state.step checksum call = .ok next ∧
      Coherent checksum next := by
  cases call with
  | writeRecord key value commit =>
      have written := writeRecord_of_sound checksum coherent.atEnd
        coherent.sound ⟨key, value, commit⟩
      refine ⟨_, ?_, coherent.appendRecord checksum valid⟩
      simp only [step, Call.run, written, History.after]
  | writeCommit ts =>
      have written := writeRecord_of_sound checksum coherent.atEnd
        coherent.sound ⟨[], [], some ts⟩
      have markerValid : WalRecord.Valid ⟨[], [], some ts⟩ :=
        Or.inr ⟨rfl, rfl⟩
      refine ⟨_, ?_, coherent.appendRecord checksum markerValid⟩
      simp only [step, Call.run, writeCommit, written, History.after]
  | truncateToLastCommit =>
      rcases coherent.truncate checksum with ⟨log, truncated, result⟩
      exact ⟨_, by simp only [step, Call.run, truncated, History.after],
        result⟩
  | reset =>
      refine ⟨created, ?_, created_coherent checksum⟩
      simp only [step, Call.run, coherent.reset, History.after]
      rfl

theorem run_coherent {calls : List Call}
    (valid : ∀ call ∈ calls, call.Valid) :
    ∃ final, run checksum calls = .ok final ∧
      Coherent checksum final := by
  suffices fromAny : ∀ state, Coherent checksum state →
      ∃ final, calls.foldlM (step checksum) state = .ok final ∧
        Coherent checksum final from
    fromAny created (created_coherent checksum)
  induction calls with
  | nil => exact fun state coherent => ⟨state, rfl, coherent⟩
  | cons call calls induction =>
      intro state coherent
      rcases step_coherent checksum coherent
          (valid call List.mem_cons_self) with
        ⟨next, stepped, nextCoherent⟩
      obtain ⟨final, done, finalCoherent⟩ := induction
        (fun other member => valid other (List.mem_cons_of_mem _ member))
        next nextCoherent
      exact ⟨final, by rw [List.foldlM_cons, stepped, ok_bind, done],
        finalCoherent⟩

/-- What replaying a prefix of the file gives. -/
theorem Coherent.replay_within {state : Logged}
    (coherent : Coherent checksum state) (memory : Nat → Nat → UInt8)
    {bytes : Bytes} (within : bytes <+: state.log.file.contents) :
    replay checksum memory bytes =
      .ok (state.history.committedWithin bytes.length) := by
  rw [coherent.contents] at within
  rcases replayLoop_committed checksum memory coherent.transactions
    coherent.ends coherent.pendingValid coherent.areUpdates within []
    (Nat.lt_succ_self _) with ⟨state, looped, records⟩
  rw [List.length_nil] at looped
  simp only [replay, looped, ok_bind, pure_eq_ok, records,
    History.committedWithin, List.nil_append, Nat.zero_add]

/-- Beyond the last commit record all transactions are found. -/
theorem Coherent.committedWithin_eq {state : Logged}
    (coherent : Coherent checksum state) {length : Nat}
    (enough : state.log.file.contents.length ≤ length) :
    state.history.committedWithin length =
      state.history.committed.flatMap Committed.records := by
  have size := congrArg List.length coherent.contents
  rw [List.length_append] at size
  unfold History.committedWithin
  rw [List.filter_eq_self.mpr]
  intro entry member
  have stop := coherent.ends.stop_le checksum entry member
  rw [decide_eq_true_eq]
  omega

/--
Replaying a prefix of the file of any log gives the records of exactly those
transactions since the last reset whose commit record ends inside the
prefix.
-/
theorem replay_prefix_of_run (memory : Nat → Nat → UInt8)
    {calls : List Call} (valid : ∀ call ∈ calls, call.Valid) :
    ∃ final, run checksum calls = .ok final ∧
      ∀ bytes, bytes <+: final.log.file.contents →
        replay checksum memory bytes =
          .ok (final.history.committedWithin bytes.length) := by
  rcases run_coherent checksum valid with ⟨final, done, coherent⟩
  exact ⟨final, done, fun bytes within =>
    coherent.replay_within checksum memory within⟩

/--
A committed record, an abandoned one and an open one, with the prefix cut
inside the last record.
-/
theorem replay_prefix_of_run_torn :
    ∃ final, run crc32
        [.writeRecord [1] [2] none, .writeCommit ⟨7⟩,
          .writeRecord [3] [4] none, .truncateToLastCommit,
          .writeRecord [5] [6] none] = .ok final ∧
      ∀ bytes, bytes <+: final.log.file.contents →
        replay crc32 (fun _ _ => 0) bytes =
          .ok (final.history.committedWithin bytes.length) := by
  refine replay_prefix_of_run crc32 (fun _ _ => 0) ?_
  intro call member
  simp only [List.mem_cons, List.not_mem_nil, or_false] at member
  rcases member with rfl | rfl | rfl | rfl | rfl
  · exact Or.inl (by decide)
  · trivial
  · exact Or.inl (by decide)
  · trivial
  · exact Or.inl (by decide)

end Logged

end WriteAheadLog

end Cdoc
