import Cdoc.Succession

/-!
# Failing commits and insertions

Processes on a directory whose tables were written by the writer of tables,
on a device which may fail while any record is written.  What a process shows
to its readers never depends on it.  What the next opening finds is right as
long as no commit record is written behind a residue of the log.
-/

namespace Cdoc

open Cdoc.Foundation
open Cdoc.Sst

/--
The device may fail in any insertion and any commit, a flush may fail at any
point, and the files may be opened again at any moment.  Unless a commit
record is written behind a residue, every read finds the transactions whose
commits have succeeded and nothing else: in the processes and, when nothing
was appended to a residue which is still there, after the next opening.
-/
theorem reads_of_faults {checksum : Checksum} {rendering : Rendering}
    {memory : Nat → Nat → UInt8} {disk : Disk}
    {layers : List (SortedMap Bytes Bytes)} {memtableSize : Nat} {db : Db}
    (tables : TableFiles checksum disk.sstDir layers)
    (opened : Db.openDb checksum memory disk memtableSize = .ok (.ok db))
    {counter : UInt64} {turns : List Turn} {process : Process}
    (valid : ∀ turn ∈ turns, turn.Valid)
    (newest : Along (Process.turn checksum rendering)
      (Process.NewestTurn rendering) (Process.start counter db) turns)
    {tail : Tail} (followed : Tail.clean.turns turns = some tail)
    (ran : (Process.start counter db).turns checksum rendering turns =
      some process) :
    ReadsByAccount checksum process
      ((Account.opened (SortedMap.stack layers)
        db.readable.active.entries).turns turns) tail :=
  (turns_accounts (start_accounts tables opened counter) valid newest
    followed ran).reads

/-- A commit fails, and another transaction commits behind it. -/
def failedCommit : List Event :=
  [.begin, .insert [1] [2] none, .writeCommit 0 (some 0),
    .begin, .insert [3] [4] none, .writeCommit 0 none, .publish, .finish]

/-- The insertion of the failed commit is found after the next opening. -/
theorem failedCommit_visible :
    ∃ process recovered,
      (Process.start 0 (Db.fresh 100)).run crc32 firstSecond
        failedCommit = some process ∧
      Db.openDb crc32 (fun _ _ => 0) process.disk 100 =
        .ok (.ok recovered) ∧
      recovered.beginReadonly.get crc32 [1] = .ok (some [2]) ∧
      ((Spec.start SortedMap.empty).run failedCommit).durable.get [1] =
        none := by
  have read : (((Process.start 0 (Db.fresh 100)).run crc32 firstSecond
      failedCommit).bind fun process =>
        (succeeded (Db.openDb crc32 (fun _ _ => 0) process.disk 100)).map
          fun recovered => recovered.beginReadonly.get crc32 [1]) =
      some (.ok (some [2])) := by
    decide +kernel
  obtain ⟨process, ran, read⟩ := Option.bind_eq_some_iff.mp read
  obtain ⟨recovered, reopened, read⟩ := Option.map_eq_some_iff.mp read
  exact ⟨process, recovered, ran, succeeded_eq_some_iff.mp reopened, read,
    rfl⟩

/--
The transaction behind a failed commit is aborted, the next one commits, and
the files are opened again.
-/
def abortedBehind : List Turn :=
  [.perform .begin, .perform (.insert [1] [2] none),
    .perform (.writeCommit 0 (some 3)), .perform .begin,
    .perform (.insert [5] [6] none), .perform .abort, .perform .begin,
    .perform (.insert [3] [4] none), .perform (.writeCommit 0 none),
    .perform .publish, .perform .finish,
    .reopen 0 (fun _ _ => 0) 100]

theorem reads_of_faults_abortedBehind :
    ∃ process, (Process.start 0 (Db.fresh 100)).turns crc32 firstSecond
        abortedBehind = some process ∧
      process.beginReadonly.get crc32 [1] = .ok none ∧
      process.beginReadonly.get crc32 [3] = .ok (some [4]) := by
  have finished : ((Process.start 0 (Db.fresh 100)).turns crc32 firstSecond
      abortedBehind).isSome = true := by
    decide +kernel
  obtain ⟨process, ran⟩ := Option.isSome_iff_exists.mp finished
  have followed : Tail.clean.turns abortedBehind = some .clean := by
    decide
  have newest : Along (Process.turn crc32 firstSecond)
      (Process.NewestTurn firstSecond) (Process.start 0 (Db.fresh 100))
      abortedBehind :=
    along_of_forall (by
      simp [abortedBehind, Process.NewestTurn, Process.NewestName])
  have reads := reads_of_faults (tableFiles_empty crc32)
    (openDb_empty crc32 (fun _ _ => 0) 100)
    (by simp [abortedBehind, Turn.Valid, Event.Valid]) newest followed ran
  exact ⟨process, ran, reads.committed.get_eq [1],
    reads.committed.get_eq [3]⟩

end Cdoc
