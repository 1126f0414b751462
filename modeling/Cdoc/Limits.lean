import Cdoc.Succession

/-!
# Keys and values the log cannot hold

An insertion checks neither the length of the key nor that of the value.  The
log holds the length of a key in fifteen bits and takes a record without a
key for a commit, and it holds the length of a value in sixteen bits.  Within
these limits nothing is ever corrupted.  Beyond them the value which was
committed is not what the next opening finds.
-/

namespace Cdoc

open Cdoc.Foundation
open Cdoc.Sst

/-- A key and a value which the log can represent. -/
def Loggable (key value : Bytes) : Prop :=
  1 ≤ key.length ∧ key.length ≤ 32767 ∧ value.length ≤ 65535

/-- Insertions within the limits, and any insertion of the given pair. -/
def Turn.Offers (key value : Bytes) : Turn → Prop
  | .perform event => event.Valid ∨ ∃ fault, event = .insert key value fault
  | .reopen .. => True

/--
Whatever else is inserted within the limits, and as long as failing writes
leave no residue in front of a commit record and each flush is named above
the tables which are there: every history in which the given pair may be
inserted reads as its account says, now and after the next opening.
-/
def Uncorrupted (checksum : Checksum) (rendering : Rendering)
    (key value : Bytes) : Prop :=
  ∀ memory disk layers memtableSize db counter turns tail process,
    TableFiles checksum disk.sstDir layers →
    Db.openDb checksum memory disk memtableSize = .ok (.ok db) →
    (∀ turn ∈ turns, turn.Offers key value) →
    Along (Process.turn checksum rendering) (Process.NewestTurn rendering)
      (Process.start counter db) turns →
    Tail.clean.turns turns = some tail →
    (Process.start counter db).turns checksum rendering turns =
      some process →
    ReadsByAccount checksum process
      ((Account.opened (SortedMap.stack layers)
        db.readable.active.entries).turns turns) tail

section Limits

variable {checksum : Checksum} {rendering : Rendering}
variable {key value : Bytes}

/-- Within the limits all insertions of such a history are valid. -/
theorem uncorrupted_of_loggable (loggable : Loggable key value) :
    Uncorrupted checksum rendering key value := by
  intro memory disk layers memtableSize db counter turns tail process tables
    opened offered newest followed ran
  have valid : ∀ turn ∈ turns, turn.Valid := by
    intro turn member
    have offers := offered turn member
    cases turn with
    | perform event =>
        rcases offers with valid | ⟨fault, rfl⟩
        · exact valid
        · exact loggable
    | reopen counter memory memtableSize => trivial
  exact (turns_accounts (start_accounts tables opened counter) valid newest
    followed ran).reads

/-! ## One committed pair -/

theorem Process.writeCommit_of_sound {self : Process}
    {tx : ReadWriteTransaction} (active : self.writer = .active tx)
    (atEnd : self.wal.file.AtEnd) {clock : UInt64} {ts : Timestamp}
    (time : Timestamp.now self.counter clock = .ok ts) :
    self.writeCommit checksum clock none =
      some { self with
        wal := self.wal.appendRecord checksum (commitRecord ts)
        counter := ts.val
        writer := .logged tx } := by
  have written := WriteAheadLog.writeRecord_of_fault checksum atEnd
    (commitRecord ts) none
  simp only [accepts, if_true] at written
  obtain ⟨result, recorded, same⟩ := written
  have committed : WriteAheadLog.writeCommit checksum ts
      (self.wal.withFault none) = .ok () result := recorded
  simp only [Process.writeCommit, active, time, committed, same]

/-- A transaction which inserts one pair. -/
def commitOf (key value : Bytes) : List Event :=
  [.begin, .insert key value none, .writeCommit 0 none, .publish, .finish]

/-- The transaction commits, whatever the lengths are. -/
theorem Process.commitOf_run {self : Process} (idle : self.writer = .idle)
    (atEnd : self.wal.file.AtEnd) {fork : MemTable}
    (grown : self.readable.active.insert key value = .ok fork)
    (small : ¬ self.memtableSize ≤ fork.estimatedSize) {ts : Timestamp}
    (time : Timestamp.now self.counter 0 = .ok ts) :
    ∃ process,
      self.run checksum rendering (commitOf key value) = some process ∧
      process.sstDir = self.sstDir := by
  let tx : ReadWriteTransaction := { self.begin with fork }
  let begun : Process := { self with writer := .active self.begin }
  let inserted : Process :=
    { begun with
      wal := self.wal.appendRecord checksum (updateRecord (key, value))
      writer := .active tx }
  let logged : Process :=
    { inserted with
      wal := inserted.wal.appendRecord checksum (commitRecord ts)
      counter := ts.val
      writer := .logged tx }
  let published : Process :=
    { logged with
      readable := tx.published
      writer := .published tx }
  have beginning : self.step checksum rendering .begin = some begun := by
    rw [Process.step, idle]
  have inserting : begun.step checksum rendering (.insert key value none) =
      some inserted :=
    @Process.insert_of_sound checksum begun self.begin rfl atEnd key value
      fork grown
  have committing : inserted.step checksum rendering (.writeCommit 0 none) =
      some logged :=
    @Process.writeCommit_of_sound checksum inserted _ rfl
      (atEnd.appended _ _) 0 ts time
  have publishing : logged.step checksum rendering .publish =
      some published :=
    rfl
  have finishing : published.step checksum rendering .finish =
      some { published with writer := .idle } :=
    if_neg small
  refine ⟨{ published with writer := .idle }, ?_, rfl⟩
  simp only [Process.run, commitOf, List.foldlM_cons, List.foldlM_nil,
    beginning, inserting, committing, publishing, finishing,
    Option.bind_eq_bind, Option.bind_some, Option.pure_def]

/-- What an opening finds in the log is within the limits. -/
theorem loggable_of_updates {memory : Nat → Nat → UInt8} {disk : Disk}
    {records : List WalRecord}
    (replayed : replayedRecords checksum memory disk = .ok records)
    (member : (key, value) ∈ updates records) : Loggable key value := by
  simp only [updates, List.mem_map, List.mem_filter] at member
  rcases member with ⟨record, ⟨member, nonempty⟩, same⟩
  cases same
  have lengths : record.key.length ≤ 32767 ∧ record.value.length ≤ 65535 := by
    unfold replayedRecords at replayed
    split at replayed
    · exact replay_lengths replayed record member
    · cases replayed
      cases member
  refine ⟨List.length_pos_of_ne_nil ?_, lengths.1, lengths.2⟩
  simpa using nonempty

/-- What is found by an opening without tables comes from the log. -/
theorem loggable_of_found {memory : Nat → Nat → UInt8} {disk : Disk}
    {memtableSize : Nat} {recovered : Db}
    (tables : disk.sstDir = SortedMap.empty)
    (opened : Db.openDb checksum memory disk memtableSize =
      .ok (.ok recovered))
    (found : recovered.beginReadonly.get checksum key =
      .ok (some value)) : Loggable key value := by
  obtain ⟨records, replayed⟩ := replayed_of_openDb opened
  have files : TableFiles checksum disk.sstDir [] := by
    rw [tables]
    exact tableFiles_empty checksum
  obtain ⟨db, reopened, result⟩ :=
    openDb_of_tableFiles files replayed memtableSize
  rw [opened] at reopened
  cases reopened
  have shown : Shows checksum recovered.beginReadonly.snapshot
      (SortedMap.stack [recovered.readable.active.entries]) :=
    (result.start_refines 0).shown
  have stored : (SortedMap.stack [recovered.readable.active.entries]).get
      key = some value :=
    Except.ok.inj
      ((ReadOnlyTransaction.get_eq shown key).symm.trans found)
  rw [SortedMap.stack, SortedMap.get_overlay, SortedMap.stack,
    SortedMap.get_empty, Option.or_none, result.entries] at stored
  rcases SortedMap.get_insertAll_eq_some stored with logged | impossible
  · exact loggable_of_updates replayed logged
  · cases impossible

/--
Nothing is corrupted exactly when the key is not empty and both lengths are
within the limits of the log.
-/
theorem uncorrupted_iff_loggable (key value : Bytes) :
    Uncorrupted checksum rendering key value ↔ Loggable key value := by
  refine ⟨?_, uncorrupted_of_loggable⟩
  intro uncorrupted
  let memtableSize := key.length + value.length + 1
  have small : ¬ memtableSize ≤ 0 + (key.length + value.length) := by
    omega
  obtain ⟨process, ran, tables⟩ := @Process.commitOf_run checksum rendering
    key value (Process.start 0 (Db.fresh memtableSize)) rfl rfl _ rfl small
    ⟨1⟩ rfl
  have members : ∀ turn ∈ (commitOf key value).map Turn.perform,
      ∃ event ∈ commitOf key value, Turn.perform event = turn :=
    fun turn member => List.mem_map.mp member
  have reads := uncorrupted (fun _ _ => 0) Disk.empty [] memtableSize
    (Db.fresh memtableSize) 0 ((commitOf key value).map .perform) .clean
    process (tableFiles_empty checksum) (openDb_empty checksum _ _) ?_ ?_
    rfl ?_
  · obtain ⟨recovered, opened, reads⟩ :=
      reads.reopened (by decide) (fun _ _ => 0) 0
    refine loggable_of_found tables opened ?_
    rw [reads.get_eq]
    exact congrArg _ (SortedMap.get_insert_self _ key value)
  · intro turn member
    obtain ⟨event, inCommit, rfl⟩ := members turn member
    simp only [commitOf, List.mem_cons, List.not_mem_nil, or_false] at inCommit
    rcases inCommit with rfl | rfl | rfl | rfl | rfl
    · exact Or.inl trivial
    · exact Or.inr ⟨none, rfl⟩
    · exact Or.inl trivial
    · exact Or.inl trivial
    · exact Or.inl trivial
  · refine along_of_forall ?_
    simp [commitOf, Process.NewestTurn, Process.NewestName]
  · rw [Process.turns, List.foldlM_map]
    exact ran

end Limits

/-- A pair within the limits. -/
theorem uncorrupted_iff_loggable_one_two :
    Loggable [1] [2] ∧ Uncorrupted crc32 firstSecond [1] [2] := by
  have loggable : Loggable [1] [2] := by
    unfold Loggable
    decide
  exact ⟨loggable, (uncorrupted_iff_loggable [1] [2]).mpr loggable⟩

/-- A transaction which inserts at the empty key, and at another one. -/
def emptyKey : List Event :=
  [.begin, .insert [] [7] none, .insert [3] [4] none, .writeCommit 0 none,
    .publish, .finish]

/-- Neither of the insertions is found after the next opening. -/
theorem emptyKey_loses_both :
    ∃ process recovered,
      (Process.start 0 (Db.fresh 100)).run crc32 firstSecond emptyKey =
        some process ∧
      process.beginReadonly.get crc32 [] = .ok (some [7]) ∧
      process.beginReadonly.get crc32 [3] = .ok (some [4]) ∧
      Db.openDb crc32 (fun _ _ => 0) process.disk 100 =
        .ok (.ok recovered) ∧
      recovered.beginReadonly.get crc32 [] = .ok none ∧
      recovered.beginReadonly.get crc32 [3] = .ok none := by
  have read : (((Process.start 0 (Db.fresh 100)).run crc32 firstSecond
      emptyKey).bind fun process =>
        (succeeded (Db.openDb crc32 (fun _ _ => 0) process.disk 100)).map
          fun recovered =>
            [process.beginReadonly.get crc32 [],
              process.beginReadonly.get crc32 [3],
              recovered.beginReadonly.get crc32 [],
              recovered.beginReadonly.get crc32 [3]]) =
      some [.ok (some [7]), .ok (some [4]), .ok none, .ok none] := by
    decide +kernel
  obtain ⟨process, ran, read⟩ := Option.bind_eq_some_iff.mp read
  obtain ⟨recovered, reopened, read⟩ := Option.map_eq_some_iff.mp read
  simp only [List.cons.injEq, and_true] at read
  obtain ⟨empty, three, emptyAfter, threeAfter⟩ := read
  exact ⟨process, recovered, ran, empty, three,
    succeeded_eq_some_iff.mp reopened, emptyAfter, threeAfter⟩

end Cdoc
