import Cdoc.Crash

/-!
# What failing writes leave in the log

A record which the device of the log does not accept as a whole leaves a part
of itself, and a commit which fails leaves the records of its transaction,
since the transaction counts as finished and nothing is truncated.  Such a
residue is invisible to a replay as long as it is the end of the log.  It
becomes visible, or hides what follows, when a later transaction commits
behind it.

`Tail` follows the end of the log from the events alone.  In every run in
which no commit record is written behind a residue, the log replays to what
was committed.
-/

namespace Cdoc

open Cdoc.Foundation
open Cdoc.Sst
open WriteAheadLog (History Logged)

/-! ## The end of the log -/

/-- What stands behind the last commit record. -/
inductive Tail where
  | clean
  /-- Whole records of the open transaction. -/
  | pending
  /-- A residue which only a truncation removes. -/
  | torn
  /-- Something was appended to a residue. -/
  | spoiled
deriving DecidableEq, Repr

namespace Tail

/-- Some bytes of a record are appended, but not all of it. -/
def part : Tail → Tail
  | .clean | .pending => .torn
  | .torn | .spoiled => .spoiled

/-- The tail after an event, unless it commits behind a residue. -/
def step (self : Tail) : Event → Option Tail
  | .insert key value fault =>
      if accepts fault (8 + key.length + value.length) then
        match self with
        | .clean | .pending => some .pending
        | .torn | .spoiled => some .spoiled
      else if fault = some 0 then
        some self
      else
        some self.part
  | .writeCommit _ fault =>
      if accepts fault 16 then
        match self with
        | .clean | .pending => some .clean
        | .torn | .spoiled => none
      else if fault = some 0 then
        match self with
        | .pending => some .torn
        | _ => some self
      else
        some self.part
  | .abort | .drop | .resetLog => some .clean
  | _ => some self

/-- The tail after a list of events, none of which commits behind a residue. -/
def run (self : Tail) (events : List Event) : Option Tail :=
  events.foldlM step self

end Tail

/--
What the log is to hold: the insertions committed since it was last empty,
and those of the open transaction.
-/
structure Ledger where
  logged : List Entry
  pending : List Entry

namespace Ledger

/-- Nothing is logged. -/
def empty : Ledger :=
  ⟨[], []⟩

/-- A complete commit record turns what is pending into what is logged. -/
def step (self : Ledger) : Event → Ledger
  | .begin | .abort | .drop => { self with pending := [] }
  | .insert key value fault =>
      if accepts fault (8 + key.length + value.length) then
        { self with pending := self.pending ++ [(key, value)] }
      else
        self
  | .writeCommit _ fault =>
      if accepts fault 16 then
        ⟨self.logged ++ self.pending, []⟩
      else
        { self with pending := [] }
  | .resetLog => empty
  | _ => self

/-- The ledger after a list of events. -/
def run (self : Ledger) (events : List Event) : Ledger :=
  events.foldl step self

end Ledger

/-! ## Logs which truncation restores -/

section Logs

variable {checksum : Checksum} {before after : WriteAheadLog}
variable {history : History} {ledger : Ledger}

/-- Truncation leaves the committed transactions and nothing else. -/
structure Restorable (checksum : Checksum)
    (committed : List WriteAheadLog.Committed) (wal : WriteAheadLog) :
    Prop where
  sound : wal.file.fault = none
  atEnd : wal.file.AtEnd
  within : wal.lastCommitPos ≤ wal.file.contents.length
  restores : ∃ log, WriteAheadLog.truncateToLastCommit wal = .ok () log ∧
    Logged.Coherent checksum ⟨log, committed, []⟩

theorem restorable_of_coherent
    (coherent : Logged.Coherent checksum ⟨before, history⟩) :
    Restorable checksum history.committed before where
  sound := coherent.sound
  atEnd := coherent.atEnd
  within := by
    rw [coherent.lastCommitPos, coherent.contents, List.length_append]
    exact Nat.le_add_right _ _
  restores := coherent.truncate checksum

/-- What is appended without a commit does not matter. -/
theorem Restorable.append
    {committed : List WriteAheadLog.Committed}
    (restorable : Restorable checksum committed before)
    (sound : after.file.fault = none)
    (atEnd : after.file.AtEnd) {data : Bytes}
    (contents : after.file.contents = before.file.contents ++ data)
    (lastCommitPos : after.lastCommitPos = before.lastCommitPos) :
    Restorable checksum committed after := by
  have kept : File.resize after.file.contents after.lastCommitPos =
      File.resize before.file.contents before.lastCommitPos := by
    have within := restorable.within
    have none : before.lastCommitPos -
        (before.file.contents ++ data).length = 0 := by
      rw [List.length_append]
      omega
    rw [contents, lastCommitPos, File.resize, File.resize, none,
      List.take_append_of_le_length within,
      Nat.sub_eq_zero_of_le within]
  refine ⟨sound, atEnd, ?_, ?_⟩
  · rw [lastCommitPos, contents, List.length_append]
    exact restorable.within.trans (Nat.le_add_right _ _)
  · obtain ⟨log, truncated, coherent⟩ := restorable.restores
    refine ⟨log, ?_, coherent⟩
    rw [← truncated, WriteAheadLog.truncateToLastCommit_eq,
      WriteAheadLog.truncateToLastCommit_eq, kept, sound,
      restorable.sound, lastCommitPos]

/-- The log holds the committed and the pending insertions. -/
def SoundLog (checksum : Checksum) (wal : WriteAheadLog)
    (ledger : Ledger) : Prop :=
  ∃ history, Logged.Coherent checksum ⟨wal, history⟩ ∧
    updates (committedRecords history) = ledger.logged ∧
    history.pending = ledger.pending.map updateRecord ∧
    ∀ entry ∈ ledger.pending, entry.1 ≠ []

/-- A truncation makes a log sound which holds the committed ones. -/
def RestorableLog (checksum : Checksum) (wal : WriteAheadLog)
    (logged : List Entry) : Prop :=
  ∃ history, updates (committedRecords history) = logged ∧
    Restorable checksum history.committed wal

/-- A replay does not see what stands behind the committed insertions. -/
def ReplaysTo (checksum : Checksum) (wal : WriteAheadLog)
    (logged : List Entry) : Prop :=
  ∃ records, updates records = logged ∧
    ∀ memory, WriteAheadLog.replay checksum memory wal.file.contents =
      .ok records

theorem SoundLog.replays (sound : SoundLog checksum before ledger) :
    ReplaysTo checksum before ledger.logged := by
  obtain ⟨history, coherent, logged, _⟩ := sound
  exact ⟨committedRecords history, logged, replay_of_coherent coherent⟩

theorem SoundLog.restorable (sound : SoundLog checksum before ledger) :
    RestorableLog checksum before ledger.logged := by
  obtain ⟨history, coherent, logged, _⟩ := sound
  exact ⟨history, logged, restorable_of_coherent coherent⟩

theorem soundLog_created (checksum : Checksum) :
    SoundLog checksum WriteAheadLog.create Ledger.empty :=
  ⟨⟨[], []⟩, Logged.created_coherent checksum, rfl, rfl,
    by simp [Ledger.empty]⟩

theorem RestorableLog.truncate
    {logged : List Entry}
    (restorable : RestorableLog checksum before logged)
    (truncated : WriteAheadLog.truncateToLastCommit before = .ok () after) :
    SoundLog checksum after ⟨logged, []⟩ := by
  obtain ⟨history, insertions, restores⟩ := restorable
  obtain ⟨log, same, coherent⟩ := restores.restores
  have equal := truncated.symm.trans same
  cases equal
  exact ⟨⟨history.committed, []⟩, coherent, insertions, rfl, by simp⟩

/-- A part of a record at the end of a sound log is not seen. -/
theorem SoundLog.torn (sound : SoundLog checksum before ledger)
    {record : WalRecord} (valid : record.Valid)
    (torn : Torn checksum before record after) :
    ReplaysTo checksum after ledger.logged := by
  obtain ⟨history, coherent, logged, _⟩ := sound
  exact ⟨committedRecords history, logged,
    torn.replay_eq coherent valid⟩

theorem RestorableLog.torn {logged : List Entry}
    (restorable : RestorableLog checksum before logged)
    {record : WalRecord} (torn : Torn checksum before record after)
    (lastCommitPos : after.lastCommitPos = before.lastCommitPos) :
    RestorableLog checksum after logged := by
  obtain ⟨history, insertions, restores⟩ := restorable
  obtain ⟨part, _, _, contents⟩ := torn.contents
  exact ⟨history, insertions,
    restores.append torn.sound torn.atEnd contents lastCommitPos⟩

theorem RestorableLog.insert {logged : List Entry}
    (restorable : RestorableLog checksum before logged) (entry : Entry) :
    RestorableLog checksum
      (before.appendRecord checksum (updateRecord entry)) logged := by
  obtain ⟨history, insertions, restores⟩ := restorable
  exact ⟨history, insertions,
    restores.append rfl (restores.atEnd.appended _ _) rfl rfl⟩

/-- A whole record joins the open transaction. -/
theorem SoundLog.insert (sound : SoundLog checksum before ledger)
    {key value : Bytes}
    (valid : (updateRecord (key, value)).Valid) (named : key ≠ []) :
    SoundLog checksum
      (before.appendRecord checksum (updateRecord (key, value)))
      { ledger with pending := ledger.pending ++ [(key, value)] } := by
  obtain ⟨history, coherent, logged, pending, keys⟩ := sound
  refine ⟨_, coherent.appendRecord checksum valid, logged, ?_, ?_⟩
  · show (history.record (updateRecord (key, value)) _).pending = _
    simp [History.record, updateRecord, pending]
  · intro entry member
    rcases List.mem_append.mp member with earlier | last
    · exact keys entry earlier
    · rw [List.mem_singleton.mp last]
      exact named

/-- The commit record closes the open transaction. -/
theorem SoundLog.commit (sound : SoundLog checksum before ledger)
    (ts : Timestamp) :
    SoundLog checksum (before.appendRecord checksum (commitRecord ts))
      ⟨ledger.logged ++ ledger.pending, []⟩ := by
  obtain ⟨history, coherent, logged, pending, keys⟩ := sound
  have markerValid : (commitRecord ts).Valid := Or.inr ⟨rfl, rfl⟩
  refine ⟨_, coherent.appendRecord checksum markerValid, ?_, rfl,
    by simp⟩
  rw [updates_committedRecords_record pending keys, logged]

end Logs

/-! ## Refused records -/

section Refusals

variable {checksum : Checksum} {rendering : Rendering}
variable {self next : Process}

/-- What a call leaves which the device has refused. -/
structure Refused (checksum : Checksum) (before : WriteAheadLog)
    (record : WalRecord) (fault : Option Nat) (after : WriteAheadLog) :
    Prop extends Torn checksum before record after where
  lastCommitPos : after.lastCommitPos = before.lastCommitPos
  atOnce : fault = some 0 → after = before

theorem refused_of_writeRecord {before result : WriteAheadLog}
    (sound : before.file.fault = none) (atEnd : before.file.AtEnd)
    {record : WalRecord} {fault : Option Nat}
    (failed : WriteAheadLog.writeRecord checksum record.key record.value
      record.timestamp (before.withFault fault) = .error .device result) :
    Refused checksum before record fault (result.withFault none) := by
  have written := WriteAheadLog.writeRecord_of_fault checksum atEnd record
    fault
  split at written
  · obtain ⟨other, done, _⟩ := written
    rw [failed] at done
    cases done
  · obtain ⟨other, part, done, within, incomplete, contents, behind⟩ :=
      written
    rw [failed] at done
    cases done
    refine ⟨⟨rfl, behind, part, within, incomplete, contents⟩, ?_, ?_⟩
    · show result.lastCommitPos = before.lastCommitPos
      exact WriteAheadLog.lastCommitPos_of_torn checksum atEnd record
        failed
    · rintro rfl
      rw [WriteAheadLog.writeRecord_refused_at_once checksum atEnd] at failed
      cases failed
      obtain ⟨⟨contents, position, device⟩, last, crc⟩ := before
      cases sound
      rfl

theorem Process.insert_refused (sound : self.wal.file.fault = none)
    (atEnd : self.wal.file.AtEnd) {key value : Bytes} {fault : Option Nat}
    (refused : ¬ accepts fault (8 + key.length + value.length) = true)
    (stepped : self.insert checksum key value fault = some next) :
    ∃ wal, Refused checksum self.wal (updateRecord (key, value)) fault wal ∧
      next = { self with wal } := by
  unfold Process.insert at stepped
  split at stepped
  · rename_i tx active
    have written := WriteAheadLog.writeRecord_of_fault checksum atEnd
      (updateRecord (key, value)) fault
    rw [length_updateRecord, if_neg refused] at written
    obtain ⟨result, part, failed, _⟩ := written
    have failure : tx.insert checksum key value
        (self.wal.withFault fault) = .error .device result :=
      io_bind_of_error failed
    rw [failure] at stepped
    cases stepped
    exact ⟨_, refused_of_writeRecord sound atEnd failed, rfl⟩
  · cases stepped

theorem Process.writeCommit_refused (sound : self.wal.file.fault = none)
    (atEnd : self.wal.file.AtEnd) {clock : UInt64} {fault : Option Nat}
    (refused : ¬ accepts fault 16 = true)
    (stepped : self.writeCommit checksum clock fault = some next) :
    ∃ ts wal, Refused checksum self.wal (commitRecord ts) fault wal ∧
      next = { self with wal, counter := ts.val, writer := .idle } := by
  unfold Process.writeCommit at stepped
  split at stepped
  · split at stepped
    · cases stepped
    · rename_i ts time
      have written := WriteAheadLog.writeRecord_of_fault checksum atEnd
        (commitRecord ts) fault
      rw [length_commitRecord, if_neg refused] at written
      obtain ⟨result, part, failed, _⟩ := written
      have failure : WriteAheadLog.writeCommit checksum ts
          (self.wal.withFault fault) = .error .device result := failed
      rw [failure] at stepped
      cases stepped
      exact ⟨ts, _, refused_of_writeRecord sound atEnd failed, rfl⟩
  · cases stepped

end Refusals

/-! ## The log along a run -/

section Runs

variable {checksum : Checksum} {rendering : Rendering}
variable {self next : Process} {ledger : Ledger} {tail tail' : Tail}

/-- What a tail tells about the log of a process. -/
def LogHolds (checksum : Checksum) (process : Process)
    (ledger : Ledger) : Tail → Prop
  | .clean => SoundLog checksum process.wal ledger ∧ ledger.pending = []
  | .pending =>
      SoundLog checksum process.wal ledger ∧
        ∃ tx, process.writer = .active tx
  | .torn =>
      RestorableLog checksum process.wal ledger.logged ∧
        ReplaysTo checksum process.wal ledger.logged ∧
        process.writer.Unlogged
  | .spoiled =>
      RestorableLog checksum process.wal ledger.logged ∧
        process.writer.Unlogged

theorem LogHolds.restorable (holds : LogHolds checksum self ledger tail) :
    RestorableLog checksum self.wal ledger.logged := by
  cases tail with
  | clean => exact holds.1.restorable
  | pending => exact holds.1.restorable
  | torn => exact holds.1
  | spoiled => exact holds.1

theorem LogHolds.replays (holds : LogHolds checksum self ledger tail)
    (unspoiled : tail ≠ .spoiled) :
    ReplaysTo checksum self.wal ledger.logged := by
  cases tail with
  | clean => exact holds.1.replays
  | pending => exact holds.1.replays
  | torn => exact holds.2.1
  | spoiled => exact absurd rfl unspoiled

theorem LogHolds.sound (holds : LogHolds checksum self ledger tail) :
    self.wal.file.fault = none ∧ self.wal.file.AtEnd := by
  obtain ⟨history, _, restores⟩ := holds.restorable
  exact ⟨restores.sound, restores.atEnd⟩

/-- Beyond the commit record the log is sound and nothing is pending. -/
theorem LogHolds.of_logged (holds : LogHolds checksum self ledger tail)
    (logged : ¬ self.writer.Unlogged) :
    tail = .clean ∧ SoundLog checksum self.wal ledger ∧
      ledger.pending = [] := by
  cases tail with
  | clean => exact ⟨rfl, holds⟩
  | pending => exact absurd (Or.inr holds.2) logged
  | torn => exact absurd holds.2.2 logged
  | spoiled => exact absurd holds.2 logged

/-- A part of a record is appended to whatever the tail is. -/
theorem LogHolds.part (holds : LogHolds checksum self ledger tail)
    {record : WalRecord} (valid : record.Valid) {fault : Option Nat}
    {wal : WriteAheadLog}
    (refused : Refused checksum self.wal record fault wal)
    {process : Process} (sameLog : process.wal = wal)
    (unlogged : process.writer.Unlogged) {after : Ledger}
    (same : after.logged = ledger.logged) :
    LogHolds checksum process after tail.part := by
  subst sameLog
  have restorable := holds.restorable.torn refused.toTorn
    refused.lastCommitPos
  have hidden (sound : SoundLog checksum self.wal ledger) :
      ReplaysTo checksum process.wal ledger.logged :=
    sound.torn valid refused.toTorn
  rw [← same] at restorable hidden
  cases tail with
  | clean => exact ⟨restorable, hidden holds.1, unlogged⟩
  | pending => exact ⟨restorable, hidden holds.1, unlogged⟩
  | torn => exact ⟨restorable, unlogged⟩
  | spoiled => exact ⟨restorable, unlogged⟩

theorem logHolds_insert (holds : LogHolds checksum self ledger tail)
    {key value : Bytes} {fault : Option Nat}
    (valid : Event.Valid (.insert key value fault))
    (followed : tail.step (.insert key value fault) = some tail')
    (stepped : self.insert checksum key value fault = some next) :
    LogHolds checksum next (ledger.step (.insert key value fault))
      tail' := by
  obtain ⟨sound, atEnd⟩ := holds.sound
  have recordValid : (updateRecord (key, value)).Valid := Or.inl valid
  by_cases accepted :
      accepts fault (8 + key.length + value.length) = true
  · obtain ⟨tx, active, result⟩ := Process.insert_cases atEnd stepped
    rw [if_pos accepted] at result
    obtain ⟨fork, _, rfl⟩ := result
    simp only [Tail.step, if_pos accepted] at followed
    simp only [Ledger.step, if_pos accepted]
    have named : key ≠ [] := List.ne_nil_of_length_pos valid.1
    cases tail with
    | clean =>
        cases followed
        exact ⟨holds.1.insert recordValid named, _, rfl⟩
    | pending =>
        cases followed
        exact ⟨holds.1.insert recordValid named, _, rfl⟩
    | torn =>
        cases followed
        exact ⟨holds.1.insert _, Or.inr ⟨_, rfl⟩⟩
    | spoiled =>
        cases followed
        exact ⟨holds.1.insert _, Or.inr ⟨_, rfl⟩⟩
  · obtain ⟨tx, active, _⟩ := Process.insert_cases atEnd stepped
    obtain ⟨wal, refused, rfl⟩ :=
      Process.insert_refused sound atEnd accepted stepped
    simp only [Tail.step, if_neg accepted] at followed
    simp only [Ledger.step, if_neg accepted]
    split at followed
    · rename_i nothing
      cases followed
      rw [refused.atOnce nothing]
      exact holds
    · cases followed
      refine holds.part recordValid refused ?_ ?_ rfl
      · rfl
      · exact Or.inr ⟨tx, active⟩

theorem logHolds_writeCommit (holds : LogHolds checksum self ledger tail)
    {clock : UInt64} {fault : Option Nat}
    (followed : tail.step (.writeCommit clock fault) = some tail')
    (stepped : self.writeCommit checksum clock fault = some next) :
    LogHolds checksum next (ledger.step (.writeCommit clock fault))
      tail' := by
  obtain ⟨sound, atEnd⟩ := holds.sound
  by_cases accepted : accepts fault 16 = true
  · obtain ⟨tx, ts, active, _, result⟩ :=
      Process.writeCommit_cases atEnd stepped
    rw [if_pos accepted] at result
    subst result
    simp only [Tail.step, if_pos accepted] at followed
    simp only [Ledger.step, if_pos accepted]
    cases tail with
    | clean =>
        cases followed
        exact ⟨holds.1.commit ts, rfl⟩
    | pending =>
        cases followed
        exact ⟨holds.1.commit ts, rfl⟩
    | torn => cases followed
    | spoiled => cases followed
  · obtain ⟨ts, wal, refused, rfl⟩ :=
      Process.writeCommit_refused sound atEnd accepted stepped
    simp only [Tail.step, if_neg accepted] at followed
    simp only [Ledger.step, if_neg accepted]
    have idle : Writer.idle.Unlogged := Or.inl rfl
    split at followed
    · -- not a byte of the commit record has reached the log
      rename_i nothing
      rw [refused.atOnce nothing]
      cases tail with
      | clean =>
          cases followed
          refine ⟨?_, rfl⟩
          have same : ({ ledger with pending := [] } : Ledger) = ledger := by
            rw [← holds.2]
          rw [same]
          exact holds.1
      | pending =>
          cases followed
          exact ⟨holds.1.restorable, holds.1.replays, idle⟩
      | torn =>
          cases followed
          exact ⟨holds.1, holds.2.1, idle⟩
      | spoiled =>
          cases followed
          exact ⟨holds.1, idle⟩
    · cases followed
      exact holds.part (Or.inr ⟨rfl, rfl⟩) refused rfl idle rfl

theorem logHolds_abort (holds : LogHolds checksum self ledger tail)
    (stepped : self.abort = some next) :
    LogHolds checksum next { ledger with pending := [] } .clean := by
  obtain ⟨_, wal, truncated, rfl⟩ := Process.abort_cases stepped
  exact ⟨holds.restorable.truncate truncated, rfl⟩

/-- Events behind the commit record which leave the log alone. -/
theorem LogHolds.behind (holds : LogHolds checksum self ledger tail)
    (logged : ¬ self.writer.Unlogged) (sameLog : next.wal = self.wal) :
    LogHolds checksum next ledger tail := by
  obtain ⟨rfl, sound, pending⟩ := holds.of_logged logged
  refine ⟨?_, pending⟩
  rw [sameLog]
  exact sound

/-- A new transaction starts behind whatever the last one has left. -/
theorem logHolds_begin (holds : LogHolds checksum self ledger tail)
    (stepped : self.step checksum rendering .begin = some next) :
    LogHolds checksum next (ledger.step .begin) tail := by
  simp only [Process.step] at stepped
  split at stepped
  · rename_i idle
    cases stepped
    cases tail with
    | clean =>
        refine ⟨?_, rfl⟩
        have same : ({ ledger with pending := [] } : Ledger) =
            ledger := by
          rw [← holds.2]
        rw [Ledger.step, same]
        exact holds.1
    | pending =>
        obtain ⟨_, tx, active⟩ := holds
        rw [idle] at active
        cases active
    | torn => exact ⟨holds.1, holds.2.1, Or.inr ⟨_, rfl⟩⟩
    | spoiled => exact ⟨holds.1, Or.inr ⟨_, rfl⟩⟩
  · cases stepped

theorem step_logHolds (holds : LogHolds checksum self ledger tail)
    {event : Event} (valid : event.Valid)
    (followed : tail.step event = some tail')
    (stepped : self.step checksum rendering event = some next) :
    LogHolds checksum next (ledger.step event) tail' := by
  cases event with
  | beginReadonly =>
      cases followed
      cases stepped
      cases tail <;> exact holds
  | begin =>
      cases followed
      exact logHolds_begin holds stepped
  | insert key value fault =>
      exact logHolds_insert holds valid followed stepped
  | abort | drop =>
      cases followed
      exact logHolds_abort holds stepped
  | writeCommit clock fault =>
      exact logHolds_writeCommit holds followed stepped
  | publish =>
      cases followed
      obtain ⟨tx, logged, rfl⟩ := Process.publish_cases stepped
      exact holds.behind (by simp [logged, Writer.Unlogged]) rfl
  | finish =>
      cases followed
      obtain ⟨tx, published, rfl⟩ := Process.finish_cases stepped
      exact holds.behind (by simp [published, Writer.Unlogged]) rfl
  | startFlush clock =>
      cases followed
      obtain ⟨tx, ts, name, bytes, published, _, _, _, rfl⟩ :=
        Process.startFlush_cases stepped
      exact holds.behind (by simp [published, Writer.Unlogged]) rfl
  | writeTmp count =>
      cases followed
      obtain ⟨tx, name, written, remaining, flushing, rfl⟩ :=
        Process.writeTmp_cases stepped
      exact holds.behind (by simp [flushing, Writer.Unlogged]) rfl
  | rename =>
      cases followed
      obtain ⟨tx, name, written, contents, flushing, _, rfl⟩ :=
        Process.rename_cases stepped
      exact holds.behind (by simp [flushing, Writer.Unlogged]) rfl
  | swap =>
      cases followed
      obtain ⟨tx, name, contents, reader, renamed, _, _, rfl⟩ :=
        Process.swap_cases stepped
      exact holds.behind (by simp [renamed, Writer.Unlogged]) rfl
  | resetLog =>
      cases followed
      obtain ⟨tx, swapped, rfl⟩ := Process.resetLog_cases stepped
      rw [holds.sound.1]
      exact ⟨soundLog_created checksum, rfl⟩
  | fail =>
      cases followed
      obtain ⟨⟨tx, state⟩, rfl⟩ := Process.fail_cases stepped
      have logged : ¬ self.writer.Unlogged := by
        rcases state with published | ⟨_, _, _, flushing⟩ | ⟨_, renamed⟩
        · simp [published, Writer.Unlogged]
        · simp [flushing, Writer.Unlogged]
        · simp [renamed, Writer.Unlogged]
      exact holds.behind logged rfl

theorem run_logHolds (holds : LogHolds checksum self ledger tail)
    {events : List Event} (valid : ∀ event ∈ events, event.Valid)
    (followed : tail.run events = some tail')
    (ran : self.run checksum rendering events = some next) :
    LogHolds checksum next (ledger.run events) tail' := by
  induction events generalizing self ledger tail with
  | nil =>
      cases ran
      cases followed
      exact holds
  | cons event events induction =>
      obtain ⟨middle, now, later⟩ := Option.bind_eq_some_iff.mp ran
      obtain ⟨between, first, rest⟩ := Option.bind_eq_some_iff.mp followed
      exact induction
        (step_logHolds holds (valid event List.mem_cons_self) first now)
        (fun other member => valid other (List.mem_cons_of_mem _ member))
        rest later

theorem openDb_wal {memory : Nat → Nat → UInt8} {disk : Disk}
    {memtableSize : Nat} {db : Db}
    (opened : Db.openDb checksum memory disk memtableSize =
      .ok (.ok db)) : db.wal = WriteAheadLog.create := by
  obtain ⟨tables, _, opened⟩ := bind_eq_ok_iff.mp opened
  split at opened
  · cases opened
  · obtain ⟨memtable, _, opened⟩ := bind_eq_ok_iff.mp opened
    cases opened
    rfl

/-- The log of a process which has just opened its database. -/
theorem logHolds_start {memory : Nat → Nat → UInt8} {disk : Disk}
    {memtableSize : Nat} {db : Db}
    (opened : Db.openDb checksum memory disk memtableSize =
      .ok (.ok db)) (counter : UInt64) :
    LogHolds checksum (Process.start counter db) Ledger.empty .clean := by
  refine ⟨?_, rfl⟩
  show SoundLog checksum db.wal Ledger.empty
  rw [openDb_wal opened]
  exact soundLog_created checksum

end Runs

/--
A process on any directory whose device may fail in any insertion and any
commit.  Unless a commit record was written behind a residue, a replay of the
log gives the insertions of the committed transactions, and of each of them
those which have succeeded.
-/
theorem replay_of_faults {checksum : Checksum} {rendering : Rendering}
    {memory : Nat → Nat → UInt8} {disk : Disk} {memtableSize : Nat}
    {db : Db}
    (opened : Db.openDb checksum memory disk memtableSize =
      .ok (.ok db))
    {counter : UInt64} {events : List Event} {process : Process}
    (valid : ∀ event ∈ events, event.Valid) {tail : Tail}
    (followed : Tail.clean.run events = some tail)
    (unspoiled : tail ≠ .spoiled)
    (ran : (Process.start counter db).run checksum rendering events =
      some process) :
    ∃ records, updates records = (Ledger.empty.run events).logged ∧
      ∀ memory', WriteAheadLog.replay checksum memory'
        process.wal.file.contents = .ok records :=
  (run_logHolds (logHolds_start opened counter) valid followed
    ran).replays unspoiled

/-- An insertion fails behind its first byte, the next one succeeds. -/
def partialInsert : List Event :=
  [.begin, .insert [1] [2] (some 1), .insert [3] [4] none,
    .writeCommit 0 none]

/-- The committed insertion is lost. -/
theorem partialInsert_lost :
    ∃ process,
      (Process.start 0 (Db.fresh 100)).run crc32 firstSecond
        partialInsert = some process ∧
      WriteAheadLog.replay crc32 (fun _ _ => 0)
        process.wal.file.contents = .ok [] ∧
      (Ledger.empty.run partialInsert).logged = [([3], [4])] := by
  have replayed : (((Process.start 0 (Db.fresh 100)).run crc32 firstSecond
      partialInsert).map fun process => WriteAheadLog.replay crc32
        (fun _ _ => 0) process.wal.file.contents) = some (.ok []) := by
    decide +kernel
  obtain ⟨process, ran, empty⟩ := Option.map_eq_some_iff.mp replayed
  exact ⟨process, ran, empty, rfl⟩

/-- The insertion which fails leaves nothing behind. -/
def refusedInsert : List Event :=
  [.begin, .insert [1] [2] (some 0), .insert [3] [4] none,
    .writeCommit 0 none]

theorem replay_of_faults_refusedInsert :
    ∃ process records,
      (Process.start 0 (Db.fresh 100)).run crc32 firstSecond
        refusedInsert = some process ∧
      updates records = [([3], [4])] ∧
      WriteAheadLog.replay crc32 (fun _ _ => 0)
        process.wal.file.contents = .ok records := by
  have finished : ((Process.start 0 (Db.fresh 100)).run crc32 firstSecond
      refusedInsert).isSome = true := by
    decide +kernel
  obtain ⟨process, ran⟩ := Option.isSome_iff_exists.mp finished
  have followed : Tail.clean.run refusedInsert = some .clean := by
    decide
  obtain ⟨records, insertions, replayed⟩ :=
    replay_of_faults (openDb_empty crc32 (fun _ _ => 0) 100)
      (by simp [refusedInsert, Event.Valid]) followed (by decide) ran
  exact ⟨process, records, ran, insertions, replayed _⟩

end Cdoc
