import Cdoc.Isolation
import Cdoc.Persistence

/-!
# Crashes

A process may stop between any two events, and while a record is written to
the log, which then ends with a part of the record.  Opening the files which
it leaves gives the map of the transactions whose commit record is complete.

The invariant is that of `Cdoc.Persistence` with nothing replayed, since the
process has started in an empty directory.
-/

namespace Cdoc

open Cdoc.Foundation
open Cdoc.Sst
open WriteAheadLog (History Logged)

/-! ## Reading the log again -/

section Recovery

variable {checksum : Checksum} {self : Process} {spec : Spec}
variable {replayed : SortedMap Bytes Bytes} {history : History}
variable {layers : List (SortedMap Bytes Bytes)}

theorem replay_of_coherent {wal : WriteAheadLog}
    (coherent : Logged.Coherent checksum ⟨wal, history⟩)
    (memory : Nat → Nat → UInt8) :
    WriteAheadLog.replay checksum memory wal.file.contents =
      .ok (committedRecords history) := by
  rw [coherent.replay_within checksum memory (List.prefix_refl _),
    coherent.committedWithin_eq checksum (le_refl _)]
  rfl

/-- A part of a record at the end of the log is not seen. -/
theorem Torn.replay_eq {before after : WriteAheadLog}
    {record : WalRecord} (torn : Torn checksum before record after)
    (coherent : Logged.Coherent checksum ⟨before, history⟩)
    (valid : record.Valid) (memory : Nat → Nat → UInt8) :
    WriteAheadLog.replay checksum memory after.file.contents =
      .ok (committedRecords history) := by
  rcases torn.contents with ⟨part, within, incomplete, contents⟩
  have whole : (before.appendRecord checksum record).file.contents =
      before.file.contents ++ record.bytes checksum before.rollingCrc :=
    rfl
  have shorter : part.length <
      (record.bytes checksum before.rollingCrc).length := by
    rcases Nat.lt_or_eq_of_le within.length_le with less | equal
    · exact less
    · exact absurd (within.eq_of_length equal) incomplete
  have appended := coherent.appendRecord checksum valid
  rw [appended.replay_within checksum memory (by
    rw [contents, whole]
    exact (List.prefix_append_right_inj _).mpr within)]
  have earlier := coherent.committedWithin_eq checksum
    (show before.file.contents.length ≤ after.file.contents.length by
      rw [contents, List.length_append]
      exact Nat.le_add_right _ _)
  refine congrArg Except.ok ?_
  dsimp only [History.record]
  split
  · -- the record which commits does not end within the file
    have outside : ¬ (before.appendRecord checksum
        record).file.contents.length ≤ after.file.contents.length := by
      rw [whole, contents, List.length_append, List.length_append]
      omega
    rw [History.committedWithin, List.filter_append,
      List.filter_cons_of_neg (by simpa using outside), List.filter_nil,
      List.append_nil]
    exact earlier
  · exact earlier

/-- A directory and a log which stand for a map. -/
def Recovers (checksum : Checksum) (disk : Disk)
    (map : SortedMap Bytes Bytes) : Prop :=
  ∀ memory memtableSize, ∃ db,
    Db.openDb checksum memory disk memtableSize = .ok (.ok db) ∧
      Shows checksum db.readable map

theorem recovers_of_files {disk : Disk} {records : List WalRecord}
    (files : TableFiles checksum disk.sstDir layers)
    (log : ∀ memory,
      replayedRecords checksum memory disk = .ok records) :
    Recovers checksum disk (SortedMap.stack
      (SortedMap.empty.insertAll (updates records) :: layers)) := by
  intro memory memtableSize
  rcases openDb_of_tableFiles files (log memory) memtableSize with
    ⟨db, opened, result⟩
  exact ⟨db, opened, layers, result.answers, by rw [result.entries]⟩

/-- Whether or not the memory table is in a table already. -/
theorem stack_written (writer : Writer) (memtable : SortedMap Bytes Bytes)
    (held : ∀ tx, (writer = .swapped tx ∨
      ∃ name, writer = .renamed tx name) → tx.fork.entries = memtable) :
    SortedMap.stack (memtable :: writer.written layers) =
      SortedMap.stack (memtable :: layers) := by
  cases writer with
  | renamed tx name =>
      have same := held tx (Or.inr ⟨name, rfl⟩)
      rw [Writer.written, same]
      exact SortedMap.overlay_overlay_self _ _
  | swapped tx =>
      have same := held tx (Or.inl rfl)
      rw [Writer.written, same]
      exact SortedMap.overlay_overlay_self _ _
  | _ => rfl

/-- What is found is the map of the tables with the log on top. -/
theorem Held.recovers_saved {logged : List Entry}
    (held : Held checksum self spec replayed logged layers)
    {disk : Disk} (sameDir : disk.sstDir = self.sstDir)
    {records : List WalRecord} (insertions : updates records = logged)
    (log : ∀ memory,
      replayedRecords checksum memory disk = .ok records) :
    Recovers checksum disk ((SortedMap.stack
      (self.writer.written layers)).insertAll logged) := by
  have files := held.files
  rw [← sameDir] at files
  have recovers := recovers_of_files files log
  rw [insertions, SortedMap.stack, SortedMap.overlay_insertAll,
    SortedMap.overlay_empty] at recovers
  exact recovers

/-- It is the durable map where the memory table is all in the log. -/
theorem Held.saved_eq {logged : List Entry}
    (held : Held checksum self spec SortedMap.empty logged layers) :
    (SortedMap.stack (self.writer.written layers)).insertAll logged =
      spec.durable := by
  have same : ∀ tx, (self.writer = .swapped tx ∨
      ∃ name, self.writer = .renamed tx name) →
        tx.fork.entries = self.front.entries := by
    rintro tx (swapped | ⟨name, renamed⟩)
    · rw [Process.front, swapped]
    · rw [Process.front, renamed]
  have stacked := @stack_written layers self.writer _ same
  rw [held.front, SortedMap.stack, SortedMap.overlay_insertAll,
    SortedMap.overlay_empty] at stacked
  rw [stacked, ← held.front, held.durable]

theorem Persists.recovers
    (persists : Persists checksum self spec SortedMap.empty history
      layers) {disk : Disk} (sameDir : disk.sstDir = self.sstDir)
    (log : ∀ memory, replayedRecords checksum memory disk =
      .ok (committedRecords history)) :
    Recovers checksum disk spec.durable := by
  have recovers := persists.held.recovers_saved sameDir rfl log
  rw [persists.held.saved_eq] at recovers
  exact recovers

end Recovery

/-! ## The names of the tables -/

/-- The names of tables sort in the order of their timestamps. -/
def Rendering.Ordered (rendering : Rendering) : Prop :=
  ∀ earlier later left right, earlier.val.toNat < later.val.toNat →
    rendering.fileName earlier = .ok left →
    rendering.fileName later = .ok right → left < right

/-- The names sort like their timestamps as far as the limit. -/
def Rendering.OrderedTo (rendering : Rendering) (limit : Nat) : Prop :=
  ∀ earlier later left right, earlier.val.toNat < later.val.toNat →
    later.val.toNat ≤ limit →
    rendering.fileName earlier = .ok left →
    rendering.fileName later = .ok right → left < right

/-- The last millisecond of the year 9999. -/
def YEAR_9999 : Nat := 253402300799999

/-- The names of tables up to the year 9999 sort like their timestamps. -/
def Rendering.OrderedTo9999 (rendering : Rendering) : Prop :=
  rendering.OrderedTo YEAR_9999

theorem Rendering.Ordered.to9999 {rendering : Rendering}
    (ordered : rendering.Ordered) : rendering.OrderedTo9999 :=
  fun earlier later left right less _ =>
    ordered earlier later left right less

/--
A flush is dated within the limit: neither the clock, with its lowest bits
cleared, nor the counter has reached it.
-/
def Process.DatedTo (limit : Nat) (self : Process) : Event → Prop
  | .startFlush clock =>
      max (clock &&& Timestamp.MASK).toNat self.counter.toNat < limit
  | _ => True

/-- The name of a table whose timestamp is not above the counter. -/
def DatedName (rendering : Rendering) (counter : UInt64) (name : Bytes) :
    Prop :=
  ∃ ts, rendering.fileName ts = .ok name ∧
    ts.val.toNat ≤ counter.toNat

/-- All tables, and the one which is being written, are dated. -/
structure Dated (rendering : Rendering) (process : Process) : Prop where
  tables : ∀ file ∈ Directory.filesWith SST process.sstDir,
    DatedName rendering process.counter file.1
  flushing : ∀ tx name written remaining,
    process.writer = .flushing tx name written remaining →
      DatedName rendering process.counter name

section Names

variable {checksum : Checksum} {rendering : Rendering}
variable {self next : Process}

theorem DatedName.later {counter later : UInt64} {name : Bytes}
    (dated : DatedName rendering counter name)
    (after : counter.toNat ≤ later.toNat) :
    DatedName rendering later name := by
  rcases dated with ⟨ts, named, bound⟩
  exact ⟨ts, named, bound.trans after⟩

/-- The counter is ahead of all tables, so a new one is named above them. -/
theorem Dated.newestName {limit : Nat} (dated : Dated rendering self)
    (ordered : rendering.OrderedTo limit) {event : Event}
    (early : self.DatedTo limit event) : self.NewestName rendering event := by
  cases event with
  | startFlush clock =>
      intro ts name time named file member
      obtain ⟨earlier, present, bound⟩ := dated.tables file member
      have ahead := Timestamp.counter_lt_of_now time
      have within : ts.val.toNat ≤ limit := by
        rw [Timestamp.now_eq_ok_iff.mp time]
        exact early
      exact ordered earlier ts _ _ (by omega) within present named
  | _ => trivial

/-- Events which leave the tables alone. -/
theorem Dated.of_sameTables (dated : Dated rendering self)
    (same : self.SameTables next) : Dated rendering next where
  tables := by
    rw [same.sstDir]
    intro file member
    exact (dated.tables file member).later same.counter
  flushing := by
    intro tx name written remaining flushing
    exact (dated.flushing tx name written remaining
      (same.flushing tx name written remaining flushing)).later
        same.counter

theorem step_dated (dated : Dated rendering self) {event : Event}
    (stepped : self.step checksum rendering event = some next) :
    Dated rendering next := by
  cases event with
  | startFlush clock =>
      rcases Process.startFlush_cases stepped with
        ⟨tx, ts, name, bytes, -, time, named, -, rfl⟩
      have ahead := (Timestamp.counter_lt_of_now time).le
      constructor
      · show ∀ file ∈ Directory.filesWith SST
          (self.sstDir.insert (tmpName name) []), _
        rw [filesWith_insert_tmp (extension_fileName named)]
        intro file member
        exact (dated.tables file member).later ahead
      · intro tx' name' written remaining flushing
        cases flushing
        exact ⟨ts, named, le_refl _⟩
  | writeTmp count =>
      rcases Process.writeTmp_cases stepped with
        ⟨tx, name, written, remaining, flushing, rfl⟩
      have datedName := dated.flushing tx name written remaining flushing
      rcases datedName with ⟨ts, named, bound⟩
      constructor
      · show ∀ file ∈ Directory.filesWith SST
          (self.sstDir.insert (tmpName name) _), _
        rw [filesWith_insert_tmp (extension_fileName named)]
        exact dated.tables
      · intro tx' name' written' remaining' again
        cases again
        exact ⟨ts, named, bound⟩
  | rename =>
      rcases Process.rename_cases stepped with
        ⟨tx, name, written, contents, flushing, -, rfl⟩
      have datedName := dated.flushing tx name written [] flushing
      constructor
      · intro file member
        rcases Directory.mem_filesWith_insert member with rfl | other
        · exact datedName
        · exact dated.tables file (Directory.mem_filesWith_erase other)
      · simp
  | beginReadonly | begin | insert | abort | drop | writeCommit | publish
  | finish | swap | resetLog | fail =>
      exact dated.of_sameTables (Process.step_sameTables stepped trivial)

/-- As long as all flushes are dated within the limit, they are newest. -/
theorem Dated.along {limit : Nat} (dated : Dated rendering self)
    (ordered : rendering.OrderedTo limit) {events : List Event}
    (early : Along (Process.step checksum rendering)
      (Process.DatedTo limit) self events) :
    Along (Process.step checksum rendering) (Process.NewestName rendering)
      self events :=
  Along.imp (fun _ _ _ dated stepped => step_dated dated stepped)
    (fun _ _ dated early => dated.newestName ordered early) dated early

/-- Where all names are in order no limit is needed. -/
theorem Dated.along_of_ordered (dated : Dated rendering self)
    (ordered : rendering.Ordered) (events : List Event) :
    Along (Process.step checksum rendering) (Process.NewestName rendering)
      self events := by
  have ordered : rendering.OrderedTo (2 ^ 64) :=
    fun earlier later left right less _ =>
      ordered earlier later left right less
  refine dated.along ordered (along_of_forall ?_)
  intro event _ process
  cases event with
  | startFlush clock =>
      exact max_lt (UInt64.toNat_lt _) (UInt64.toNat_lt _)
  | _ => trivial

end Names

/-! ## Runs from an empty directory -/

section Runs

variable {checksum : Checksum} {rendering : Rendering}
variable {self next : Process} {spec : Spec}

/-- What holds as long as the first process has not failed. -/
structure FirstRun (checksum : Checksum) (rendering : Rendering)
    (process : Process) (spec : Spec) : Prop where
  refines : Refines checksum process spec
  dated : Dated rendering process
  persists : ∃ history layers,
    Persists checksum process spec SortedMap.empty history layers

theorem start_firstRun (checksum : Checksum) (rendering : Rendering)
    (counter : UInt64) (memtableSize : Nat) :
    FirstRun checksum rendering
      (Process.start counter (Db.fresh memtableSize))
      (Spec.start SortedMap.empty) where
  refines := {
    atEnd := rfl
    shown := ⟨[], List.Forall₂.nil, rfl⟩
    storable := new_storable
    readers := List.Forall₂.nil
    writer := trivial }
  dated := {
    tables := by
      intro file member
      cases member
    flushing := by
      intro tx name written remaining flushing
      cases flushing }
  persists := ⟨⟨[], []⟩, [], {
    coherent := Logged.created_coherent checksum
    files := List.Forall₂.nil
    tables := List.Forall₂.nil
    front := rfl
    durable := rfl
    writer := ⟨rfl, rfl⟩ }⟩

theorem step_firstRun (first : FirstRun checksum rendering self spec)
    {event : Event} (valid : event.Valid) (sound : event.Sound)
    (newest : self.NewestName rendering event)
    (stepped : self.step checksum rendering event = some next) :
    FirstRun checksum rendering next (spec.step event) := by
  rcases first.persists with ⟨history, layers, persists⟩
  rcases step_persists persists first.refines valid sound newest
    stepped with ⟨replayed, history', layers', result, unchanged | empty⟩
  · subst unchanged
    exact ⟨step_refines first.refines valid.fits stepped,
      step_dated first.dated stepped,
      history', layers', result⟩
  · subst empty
    exact ⟨step_refines first.refines valid.fits stepped,
      step_dated first.dated stepped,
      history', layers', result⟩

theorem run_firstRun (first : FirstRun checksum rendering self spec)
    {events : List Event}
    (newest : Along (Process.step checksum rendering)
      (Process.NewestName rendering) self events)
    (valid : ∀ event ∈ events, event.Valid)
    (sound : ∀ event ∈ events, event.Sound)
    (ran : self.run checksum rendering events = some next) :
    FirstRun checksum rendering next (spec.run events) :=
  @Along.run_beside _ _ _ _ self Spec Spec.step
    (FirstRun checksum rendering) (fun event => event.Valid ∧ event.Sound)
    (fun _ _ _ _ first allowed newest stepped =>
      step_firstRun first allowed.1 allowed.2 newest stepped)
    next spec events newest first
    (fun event member => ⟨valid event member, sound event member⟩) ran

theorem FirstRun.recovers
    (first : FirstRun checksum rendering self spec) :
    Recovers checksum self.disk spec.durable := by
  rcases first.persists with ⟨history, layers, persists⟩
  exact persists.recovers rfl (replay_of_coherent persists.coherent)

/-- The process stops inside an event or right behind it. -/
theorem FirstRun.recovers_step
    (first : FirstRun checksum rendering self spec) {event : Event}
    (valid : event.Valid) (newest : self.NewestName rendering event)
    (stepped : self.step checksum rendering event = some next) :
    Recovers checksum next.disk (spec.step event).durable := by
  by_cases sound : event.Sound
  · exact (step_firstRun first valid sound newest stepped).recovers
  · rcases first.persists with ⟨history, layers, persists⟩
    cases event with
    | insert key value fault =>
        rcases Process.insert_cases first.refines.atEnd stepped with
          ⟨tx, -, result⟩
        have refused : ¬ accepts fault (8 + key.length + value.length) =
          true := sound
        rw [if_neg refused] at result
        rcases result with ⟨wal, torn, rfl⟩
        rw [Spec.step, if_neg refused]
        exact persists.recovers rfl
          (torn.replay_eq persists.coherent (Or.inl valid))
    | writeCommit clock fault =>
        rcases Process.writeCommit_cases first.refines.atEnd stepped with
          ⟨tx, ts, -, -, result⟩
        have refused : ¬ accepts fault 16 = true := sound
        rw [if_neg refused] at result
        rcases result with ⟨wal, torn, rfl⟩
        rw [Spec.step, if_neg refused]
        exact persists.recovers rfl
          (torn.replay_eq persists.coherent (Or.inr ⟨rfl, rfl⟩))
    | fail =>
        rcases Process.fail_cases stepped with ⟨-, rfl⟩
        exact first.recovers
    | _ => exact absurd trivial sound

/-- The files which a first process leaves, whether or not it has crashed. -/
theorem recovers_of_run {process : Process} {counter : UInt64}
    {memtableSize : Nat} {events : List Event}
    (newest : Along (Process.step checksum rendering)
      (Process.NewestName rendering)
      (Process.start counter (Db.fresh memtableSize)) events)
    (valid : ∀ event ∈ events, event.Valid)
    (sound : ∀ event ∈ events.dropLast, event.Sound)
    (ran : (Process.start counter (Db.fresh memtableSize)).run checksum
      rendering events = some process) :
    Recovers checksum process.disk
      ((Spec.start SortedMap.empty).run events).durable := by
  have start := start_firstRun checksum rendering counter memtableSize
  rcases List.eq_nil_or_concat events with rfl | ⟨earlier, last, rfl⟩
  · cases ran
    exact start.recovers
  · rw [List.concat_eq_append] at newest valid sound ran ⊢
    rw [List.dropLast_concat] at sound
    obtain ⟨middle, before, ending⟩ := Process.run_append_eq_some_iff.mp ran
    obtain ⟨after, stepped, done⟩ := Process.run_cons_eq_some_iff.mp ending
    cases done
    obtain ⟨newestBefore, newestBehind⟩ := along_append.mp newest
    have first := run_firstRun start newestBefore
      (fun event member => valid event (List.mem_append_left _ member))
      sound before
    rw [Spec.run_append]
    exact first.recovers_step (valid last (by simp))
      (newestBehind middle before).1 stepped

end Runs

/--
One opening after a crash.  Only in the last event may the device of the log
accept less than what is written; the process has stopped inside it.
-/
theorem reads_of_crash {checksum : Checksum} {rendering : Rendering}
    (ordered : rendering.Ordered) {memory : Nat → Nat → UInt8}
    {memtableSize : Nat} {db : Db}
    (opened : Db.openDb checksum memory Disk.empty memtableSize =
      .ok (.ok db))
    {counter : UInt64} {events : List Event} {process : Process}
    (valid : ∀ event ∈ events, event.Valid)
    (sound : ∀ event ∈ events.dropLast, event.Sound)
    (ran : (Process.start counter db).run checksum rendering events =
      some process)
    (memory' : Nat → Nat → UInt8) (memtableSize' : Nat) :
    ∃ recovered,
      Db.openDb checksum memory' process.disk memtableSize' =
        .ok (.ok recovered) ∧
      ReadsAs (recovered.beginReadonly.get checksum)
        recovered.beginReadonly.scan
        ((Spec.start SortedMap.empty).run events).durable := by
  rw [openDb_empty] at opened
  cases opened
  have start := start_firstRun checksum rendering counter memtableSize
  obtain ⟨recovered, reopened, shown⟩ := recovers_of_run
    (start.dated.along_of_ordered ordered events) valid sound ran memory'
    memtableSize'
  exact ⟨recovered, reopened, ReadOnlyTransaction.readsAs shown⟩

/-! ## A torn commit -/

theorem digit_lt {left right : Nat} (less : left % 10 < right % 10) :
    digit left < digit right := by
  rw [UInt8.lt_iff_toNat_lt]
  unfold digit
  rw [UInt8.toNat_ofNat', UInt8.toNat_ofNat']
  omega

theorem digit_eq {left right : Nat} (same : left % 10 = right % 10) :
    digit left = digit right := by
  unfold digit
  rw [same]

/-- Three digits of two numbers below a thousand. -/
theorem digits_lt {left right : Nat} (less : left < right)
    (small : right < 1000) (leftRest rightRest : Bytes) :
    digit (left / 100) :: digit (left / 10) :: digit left :: leftRest <
      digit (right / 100) :: digit (right / 10) :: digit right ::
        rightRest := by
  simp only [List.cons_lt_cons_iff]
  by_cases hundreds : left / 100 % 10 < right / 100 % 10
  · exact Or.inl (digit_lt hundreds)
  · refine Or.inr ⟨digit_eq (by omega), ?_⟩
    by_cases tens : left / 10 % 10 < right / 10 % 10
    · exact Or.inl (digit_lt tens)
    · refine Or.inr ⟨digit_eq (by omega), Or.inl (digit_lt (by omega))⟩

theorem firstSecond_ordered : firstSecond.Ordered := by
  intro earlier later left right less leftNamed rightNamed
  rcases bind_eq_ok_iff.mp leftNamed with ⟨leftText, leftShown, leftDone⟩
  rcases bind_eq_ok_iff.mp rightNamed with
    ⟨rightText, rightShown, rightDone⟩
  cases leftDone
  cases rightDone
  simp only [firstSecond] at leftShown rightShown
  rw [if_neg (by omega)] at rightShown
  split at rightShown
  · rename_i small
    cases rightShown
    split at leftShown
    · cases leftShown
      rw [List.append_assoc, List.append_assoc, append_lt_append_iff]
      exact List.cons_lt_cons_iff.mpr (Or.inl (by decide))
    · rw [if_pos (by omega)] at leftShown
      cases leftShown
      rw [List.append_assoc, List.append_assoc, append_lt_append_iff]
      exact List.cons_lt_cons_iff.mpr
        (Or.inr ⟨rfl, digits_lt less small _ _⟩)
  · cases rightShown

theorem reads_of_crash_tornCommit :
    ∃ process recovered,
      (Process.start 0 (Db.fresh 1)).run crc32 firstSecond
          (flushedCommit ++ [.begin, .insert [3] [4] none,
            .writeCommit 0 (some 15)]) = some process ∧
      Db.openDb crc32 (fun _ _ => 0) process.disk 1 =
        .ok (.ok recovered) ∧
      recovered.beginReadonly.get crc32 [1] = .ok (some [2]) ∧
      recovered.beginReadonly.get crc32 [3] = .ok none := by
  have finished : ((Process.start 0 (Db.fresh 1)).run crc32 firstSecond
      (flushedCommit ++ [.begin, .insert [3] [4] none,
        .writeCommit 0 (some 15)])).isSome = true := by
    decide +kernel
  rcases Option.isSome_iff_exists.mp finished with ⟨process, ran⟩
  rcases reads_of_crash firstSecond_ordered
    (openDb_empty crc32 (fun _ _ => 0) 1)
    (by simp [flushedCommit, Event.Valid])
    (by simp [flushedCommit, Event.Sound, accepts]) ran
    (fun _ _ => 0) 1 with ⟨recovered, reopened, reads⟩
  exact ⟨process, recovered, ran, reopened, reads.get_eq [1],
    reads.get_eq [3]⟩
end Cdoc
