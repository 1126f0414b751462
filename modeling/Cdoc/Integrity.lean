import Cdoc.Crash

/-!
# Integrity over all crashes

A directory may see any number of processes, each of which stops at any
moment, also inside the write of a record, and starts with any clock.  Which
committed values survive then depends on the clocks and on the flushes.  What
does not depend on them is that nothing else is ever read: a value which a
reader finds under a key has been inserted under that key by a transaction
whose commit record was written completely.  The next opening never fails.

The vouchers keep the insertions of all such transactions, of all processes.
The invariant says that the readable state, the tables and the log hold
nothing for which there is no voucher.
-/

namespace Cdoc

open Cdoc.Foundation
open Cdoc.Sst
open WriteAheadLog (History Logged)

/-! ## Incidents -/

/--
What happens to a directory: an event of the running process, or its end.
A process may end inside an event, of which only a part is then on disk; the
next process opens the directory.
-/
inductive Incident where
  | perform (event : Event)
  | crash (inside : Option Event) (memory : Nat → Nat → UInt8)
      (memtableSize : Nat)

namespace Process

variable (checksum : Checksum) (rendering : Rendering)

/-- The process after an incident; behind a crash it is a new one. -/
def undergo (process : Process) : Incident → Option Process
  | .perform event => process.step checksum rendering event
  | .crash inside memory memtableSize => do
      let stopped ← match inside with
        | some event => process.step checksum rendering event
        | none => some process
      match Db.openDb checksum memory stopped.disk memtableSize with
      | .ok (.ok db) => some (start 0 db)
      | _ => none

/-- The process after a list of incidents. -/
def undergoAll (process : Process) (incidents : List Incident) :
    Option Process :=
  incidents.foldlM (undergo checksum rendering) process

end Process

/-- The device of the log accepts what is written. -/
def Event.LogSound : Event → Prop
  | .insert key value fault =>
      accepts fault (8 + key.length + value.length) = true
  | .writeCommit _ fault => accepts fault 16 = true
  | _ => True

/-- The device of the log may only fail when the process ends. -/
def Incident.Allowed : Incident → Prop
  | .perform event => event.Valid ∧ event.LogSound
  | .crash inside _ _ => ∀ event ∈ inside, event.Valid

/-! ## Vouchers -/

/-- The committed insertions of all processes, and those of the writer. -/
structure Vouchers where
  committed : List Entry
  own : List Entry

namespace Vouchers

/-- Nothing has been inserted yet. -/
def empty : Vouchers :=
  ⟨[], []⟩

/--
A commit record which is completely written moves the entries of the writer to
the committed ones.
-/
def step (vouchers : Vouchers) : Event → Vouchers
  | .insert key value fault =>
      if accepts fault (8 + key.length + value.length) then
        { vouchers with own := vouchers.own ++ [(key, value)] }
      else
        vouchers
  | .writeCommit _ fault =>
      if accepts fault 16 then
        ⟨vouchers.committed ++ vouchers.own, []⟩
      else
        { vouchers with own := [] }
  | .begin | .abort | .drop => { vouchers with own := [] }
  | _ => vouchers

/-- A crash takes the open transaction with it, but not a commit inside it. -/
def undergo (vouchers : Vouchers) : Incident → Vouchers
  | .perform event => vouchers.step event
  | .crash (some event) _ _ => { vouchers.step event with own := [] }
  | .crash none _ _ => { vouchers with own := [] }

/-- The vouchers after a list of incidents. -/
def undergoAll (vouchers : Vouchers) (incidents : List Incident) : Vouchers :=
  incidents.foldl undergo vouchers

end Vouchers

/-- Every entry of the map is one of the given entries. -/
def Within (entries : List Entry) (map : SortedMap Bytes Bytes) : Prop :=
  ∀ key value, map.get key = some value → (key, value) ∈ entries

section Maps

variable {entries more : List Entry} {map : SortedMap Bytes Bytes}

theorem Within.mono (within : Within entries map)
    (subset : ∀ entry ∈ entries, entry ∈ more) : Within more map :=
  fun key value found => subset _ (within key value found)

theorem Within.insertAll (within : Within entries map)
    {inserts : List Entry} (known : ∀ entry ∈ inserts, entry ∈ entries) :
    Within entries (map.insertAll inserts) := by
  intro key value found
  rcases SortedMap.get_insertAll_eq_some found with inserted | before
  · exact known _ inserted
  · exact within key value before

theorem within_insertAll_empty {inserts : List Entry}
    (known : ∀ entry ∈ inserts, entry ∈ entries) :
    Within entries (SortedMap.empty.insertAll inserts) :=
  Within.insertAll (fun _ _ found => by cases found) known

theorem within_stack {layers : List (SortedMap Bytes Bytes)}
    (within : ∀ layer ∈ layers, Within entries layer) :
    Within entries (SortedMap.stack layers) := by
  induction layers with
  | nil =>
      intro key value found
      cases found
  | cons upper layers induction =>
      obtain ⟨top, others⟩ := List.forall_mem_cons.mp within
      intro key value found
      rw [SortedMap.stack, SortedMap.get_overlay] at found
      cases present : upper.get key with
      | some other =>
          rw [present] at found
          cases found
          exact top key value present
      | none =>
          rw [present] at found
          exact induction others key value found

/-- The uppermost layer is part of what a stack shows. -/
theorem Within.of_stack {upper : SortedMap Bytes Bytes}
    {layers : List (SortedMap Bytes Bytes)}
    (within : Within entries (SortedMap.stack (upper :: layers))) :
    Within entries upper := by
  intro key value found
  refine within key value ?_
  rw [SortedMap.stack, SortedMap.get_overlay, found]
  rfl

end Maps

/-! ## The invariant -/

/-- The file of a table which holds nothing but the given entries. -/
def VouchedFile (checksum : Checksum) (entries : List Entry)
    (file : Bytes × Bytes) : Prop :=
  ∃ layer, TableFile checksum file layer ∧ Within entries layer

/-- What the writer has inserted, and where it stands. -/
def WriterVouched (process : Process) (spec : Spec) (history : History)
    (vouchers : Vouchers) : Prop :=
  match process.writer with
  | .active _ =>
      spec.writer = some ⟨spec.committed, vouchers.own⟩ ∧
        history.pending = vouchers.own.map updateRecord ∧
        ∀ entry ∈ vouchers.own, entry.1 ≠ []
  | .logged _ =>
      history.pending = [] ∧ ∃ inserts,
        spec.writer = some ⟨spec.committed, inserts⟩ ∧
          ∀ entry ∈ inserts, entry ∈ vouchers.committed
  | .flushing _ name _ _ =>
      history.pending = [] ∧ Directory.extension name = some SST
  | _ => history.pending = []

/--
Whatever is in memory or in a file has been inserted by a transaction which
was committed, or by the writer itself.
-/
structure Vouched (checksum : Checksum) (process : Process) (spec : Spec)
    (history : History) (vouchers : Vouchers) : Prop where
  refines : Refines checksum process spec
  coherent : Logged.Coherent checksum ⟨process.wal, history⟩
  records : ∀ entry ∈ updates (committedRecords history),
    entry ∈ vouchers.committed
  files : ∀ file ∈ Directory.filesWith SST process.sstDir,
    VouchedFile checksum vouchers.committed file
  committed : Within vouchers.committed spec.committed
  readers : ∀ map ∈ spec.readers, Within vouchers.committed map
  writer : WriterVouched process spec history vouchers

section Steps

variable {checksum : Checksum} {rendering : Rendering}
variable {process next : Process} {spec : Spec}
variable {history : History} {vouchers : Vouchers}

/-- What the state of the writer which is named tells. -/
theorem Vouched.writer_eq
    (vouched : Vouched checksum process spec history vouchers)
    {writer : Writer} (named : process.writer = writer) :
    WriterVouched { process with writer } spec history vouchers := by
  subst named
  exact vouched.writer

theorem vouched_insert
    (vouched : Vouched checksum process spec history vouchers)
    {key value : Bytes} {fault : Option Nat}
    (valid : Event.Valid (.insert key value fault))
    (sound : accepts fault (8 + key.length + value.length) = true)
    (stepped : process.insert checksum key value fault = some next) :
    ∃ history, Vouched checksum next (spec.step (.insert key value fault))
      history (vouchers.step (.insert key value fault)) := by
  have fits : Fits (key, value) :=
    @Event.Valid.fits (.insert key value fault) valid
  have refines := refines_insert vouched.refines fits stepped
  rcases Process.insert_cases vouched.coherent.atEnd stepped with
    ⟨tx, active, result⟩
  rw [if_pos sound] at result
  rcases result with ⟨fork, -, rfl⟩
  rcases vouched.writer_eq active with ⟨own, pending, named⟩
  have recordValid : (updateRecord (key, value)).Valid := Or.inl valid
  rw [Vouchers.step, if_pos sound]
  rw [Spec.step, if_pos sound, own] at refines ⊢
  refine ⟨history.record (updateRecord (key, value)) _, {
    refines := refines
    coherent := vouched.coherent.appendRecord checksum recordValid
    records := vouched.records
    files := vouched.files
    committed := vouched.committed
    readers := vouched.readers
    writer := ⟨rfl, ?_, ?_⟩ }⟩
  · simp [History.record, updateRecord, pending]
  · intro entry member
    rcases List.mem_append.mp member with earlier | last
    · exact named entry earlier
    · rw [List.mem_singleton.mp last]
      exact List.ne_nil_of_length_pos valid.1

theorem vouched_abort
    (vouched : Vouched checksum process spec history vouchers)
    (stepped : process.abort = some next) :
    Vouched checksum next { spec with writer := none }
      ⟨history.committed, []⟩ { vouchers with own := [] } := by
  have refines := refines_abort vouched.refines stepped
  rcases Process.abort_cases stepped with ⟨-, wal, truncated, rfl⟩
  rcases vouched.coherent.truncate checksum with ⟨log, same, coherent⟩
  have equal : wal = log := by
    have logs := truncated.symm.trans same
    cases logs
    rfl
  subst equal
  exact {
    refines := refines
    coherent := coherent
    records := vouched.records
    files := vouched.files
    committed := vouched.committed
    readers := vouched.readers
    writer := rfl }

/-- The commit record vouches for the insertions of the writer. -/
theorem vouched_writeCommit
    (vouched : Vouched checksum process spec history vouchers)
    {clock : UInt64} {fault : Option Nat}
    (sound : accepts fault 16 = true)
    (stepped : process.writeCommit checksum clock fault = some next) :
    ∃ history, Vouched checksum next (spec.step (.writeCommit clock fault))
      history (vouchers.step (.writeCommit clock fault)) := by
  have refines := refines_writeCommit vouched.refines stepped
  rcases Process.writeCommit_cases vouched.coherent.atEnd stepped with
    ⟨tx, ts, active, -, result⟩
  rw [if_pos sound] at result
  subst result
  rcases vouched.writer_eq active with ⟨own, pending, named⟩
  have markerValid : (commitRecord ts).Valid := Or.inr ⟨rfl, rfl⟩
  have grows : ∀ entry ∈ vouchers.committed,
      entry ∈ vouchers.committed ++ vouchers.own :=
    fun _ => List.mem_append_left _
  rw [Vouchers.step, if_pos sound]
  rw [Spec.step, if_pos sound] at refines ⊢
  refine ⟨_, {
    refines := refines
    coherent := vouched.coherent.appendRecord checksum markerValid
    records := ?_
    files := ?_
    committed := vouched.committed.mono grows
    readers := fun map member => (vouched.readers map member).mono grows
    writer := ⟨rfl, vouchers.own, own, ?_⟩ }⟩
  · intro entry member
    rw [updates_committedRecords_record pending named] at member
    exact (List.mem_append.mp member).elim
      (fun before => grows entry (vouched.records entry before))
      (List.mem_append_right _)
  · intro file member
    obtain ⟨layer, table, within⟩ := vouched.files file member
    exact ⟨layer, table, within.mono grows⟩
  · intro entry member
    exact List.mem_append_right _ member

theorem vouched_publish
    (vouched : Vouched checksum process spec history vouchers)
    (stepped : process.publish = some next) :
    Vouched checksum next (spec.step .publish) history vouchers := by
  have refines := refines_publish vouched.refines stepped
  rcases Process.publish_cases stepped with ⟨tx, logged, rfl⟩
  rcases vouched.writer_eq logged with ⟨pending, inserts, own, known⟩
  exact {
    refines := refines
    coherent := vouched.coherent
    records := vouched.records
    files := vouched.files
    committed := by
      rw [Spec.step, own]
      exact vouched.committed.insertAll known
    readers := vouched.readers
    writer := pending }

/-- The lock is released where nothing is pending in the log. -/
theorem Vouched.release
    (vouched : Vouched checksum process spec history vouchers)
    (pending : history.pending = []) :
    Vouched checksum { process with writer := .idle }
      { spec with writer := none } history vouchers where
  refines := vouched.refines.release vouched.refines.atEnd process.counter
  coherent := vouched.coherent
  records := vouched.records
  files := vouched.files
  committed := vouched.committed
  readers := vouched.readers
  writer := pending

theorem vouched_startFlush
    (vouched : Vouched checksum process spec history vouchers)
    {clock : UInt64}
    (stepped : process.startFlush checksum rendering clock = some next) :
    Vouched checksum next spec history vouchers := by
  have refines := refines_startFlush vouched.refines stepped
  rcases Process.startFlush_cases stepped with
    ⟨tx, ts, name, bytes, published, -, named, -, rfl⟩
  have table := extension_fileName named
  exact {
    refines := refines
    coherent := vouched.coherent
    records := vouched.records
    files := by
      rw [filesWith_insert_tmp table]
      exact vouched.files
    committed := vouched.committed
    readers := vouched.readers
    writer := ⟨vouched.writer_eq published, table⟩ }

theorem vouched_writeTmp
    (vouched : Vouched checksum process spec history vouchers)
    {count : Nat} (stepped : process.writeTmp count = some next) :
    Vouched checksum next spec history vouchers := by
  have refines := refines_writeTmp vouched.refines stepped
  rcases Process.writeTmp_cases stepped with
    ⟨tx, name, written, remaining, flushing, rfl⟩
  rcases vouched.writer_eq flushing with ⟨pending, table⟩
  exact {
    refines := refines
    coherent := vouched.coherent
    records := vouched.records
    files := by
      rw [filesWith_insert_tmp table]
      exact vouched.files
    committed := vouched.committed
    readers := vouched.readers
    writer := ⟨pending, table⟩ }

/-- The memory table is part of what readers find. -/
theorem Vouched.active_within
    (vouched : Vouched checksum process spec history vouchers) :
    Within vouchers.committed process.readable.active.entries := by
  rcases vouched.refines.shown with ⟨layers, -, committed⟩
  have within := vouched.committed
  rw [committed] at within
  exact within.of_stack

/-- A new table may take the place of one which has the same name. -/
theorem vouched_rename
    (vouched : Vouched checksum process spec history vouchers)
    (stepped : process.rename = some next) :
    Vouched checksum next spec history vouchers := by
  have refines := refines_rename vouched.refines stepped
  rcases Process.rename_cases stepped with
    ⟨tx, name, written, contents, flushing, found, rfl⟩
  rcases vouched.writer_eq flushing with ⟨pending, table⟩
  rcases vouched.refines.writer_eq flushing with
    ⟨readable, present, ts, bytes⟩
  have same : written = contents :=
    Option.some.inj (present.symm.trans found)
  rw [List.append_nil, same] at bytes
  have active := vouched.active_within
  have storable := vouched.refines.storable
  rw [show process.readable = tx.published from readable] at active storable
  exact {
    refines := refines
    coherent := vouched.coherent
    records := vouched.records
    files := by
      intro file member
      rcases Directory.mem_filesWith_insert member with rfl | other
      · exact ⟨tx.fork.entries, ⟨storable.fits, ts, ts, bytes⟩, active⟩
      · exact vouched.files file (Directory.mem_filesWith_erase other)
    committed := vouched.committed
    readers := vouched.readers
    writer := pending }

theorem vouched_swap
    (vouched : Vouched checksum process spec history vouchers)
    (stepped : process.swap = some next) :
    Vouched checksum next spec history vouchers := by
  have refines := refines_swap vouched.refines stepped
  rcases Process.swap_cases stepped with
    ⟨tx, name, contents, reader, renamed, -, -, rfl⟩
  exact {
    refines := refines
    coherent := vouched.coherent
    records := vouched.records
    files := vouched.files
    committed := vouched.committed
    readers := vouched.readers
    writer := vouched.writer_eq renamed }

theorem vouched_resetLog
    (vouched : Vouched checksum process spec history vouchers)
    (stepped : process.resetLog = some next) :
    Vouched checksum next { spec with writer := none } ⟨[], []⟩ vouchers := by
  have refines := refines_resetLog vouched.refines stepped
  rcases Process.resetLog_cases stepped with ⟨tx, -, rfl⟩
  have sound : process.wal.file.fault = none := vouched.coherent.sound
  exact {
    refines := refines
    coherent := by
      rw [sound]
      exact Logged.created_coherent checksum
    records := by simp [committedRecords, updates]
    files := vouched.files
    committed := vouched.committed
    readers := vouched.readers
    writer := rfl }

/-- No event brings in an entry without a voucher. -/
theorem step_vouched
    (vouched : Vouched checksum process spec history vouchers)
    {event : Event} (valid : event.Valid) (sound : event.LogSound)
    (stepped : process.step checksum rendering event = some next) :
    ∃ history', Vouched checksum next (spec.step event) history'
      (vouchers.step event) := by
  cases event with
  | beginReadonly =>
      cases stepped
      refine ⟨history, {
        refines := refines_beginReadonly vouched.refines
        coherent := vouched.coherent
        records := vouched.records
        files := vouched.files
        committed := vouched.committed
        readers := ?_
        writer := vouched.writer }⟩
      intro map member
      rcases List.mem_append.mp member with earlier | last
      · exact vouched.readers map earlier
      · rw [List.mem_singleton.mp last]
        exact vouched.committed
  | begin =>
      simp only [Process.step] at stepped
      split at stepped
      · rename_i idle
        cases stepped
        exact ⟨history, {
          refines := refines_begin vouched.refines
          coherent := vouched.coherent
          records := vouched.records
          files := vouched.files
          committed := vouched.committed
          readers := vouched.readers
          writer := ⟨rfl, vouched.writer_eq idle, by simp [Vouchers.step]⟩ }⟩
      · cases stepped
  | insert key value fault => exact vouched_insert vouched valid sound stepped
  | abort | drop => exact ⟨_, vouched_abort vouched stepped⟩
  | writeCommit clock fault =>
      exact vouched_writeCommit vouched sound stepped
  | publish => exact ⟨_, vouched_publish vouched stepped⟩
  | finish =>
      rcases Process.finish_cases stepped with ⟨tx, published, rfl⟩
      exact ⟨_, vouched.release (vouched.writer_eq published)⟩
  | startFlush clock => exact ⟨_, vouched_startFlush vouched stepped⟩
  | writeTmp count => exact ⟨_, vouched_writeTmp vouched stepped⟩
  | rename => exact ⟨_, vouched_rename vouched stepped⟩
  | swap => exact ⟨_, vouched_swap vouched stepped⟩
  | resetLog => exact ⟨_, vouched_resetLog vouched stepped⟩
  | fail =>
      rcases Process.fail_cases stepped with
        ⟨⟨tx, published | ⟨name, written, remaining, flushing⟩ |
          ⟨name, renamed⟩⟩, rfl⟩
      · exact ⟨_, vouched.release (vouched.writer_eq published)⟩
      · exact ⟨_, vouched.release (vouched.writer_eq flushing).1⟩
      · exact ⟨_, vouched.release (vouched.writer_eq renamed)⟩

/-! ## Ends and openings -/

/-- Files which hold nothing but the given entries. -/
structure VouchedDisk (checksum : Checksum) (disk : Disk)
    (entries : List Entry) : Prop where
  log : ∃ records, (∀ memory,
    replayedRecords checksum memory disk = .ok records) ∧
      ∀ entry ∈ updates records, entry ∈ entries
  files : ∀ file ∈ Directory.filesWith SST disk.sstDir,
    VouchedFile checksum entries file

theorem Vouched.disk
    (vouched : Vouched checksum process spec history vouchers) :
    VouchedDisk checksum process.disk vouchers.committed where
  log := ⟨committedRecords history,
    replay_of_coherent vouched.coherent, vouched.records⟩
  files := vouched.files

/-- A part of a record behind the log is not replayed. -/
theorem Vouched.tornDisk
    (vouched : Vouched checksum process spec history vouchers)
    {record : WalRecord} {wal : WriteAheadLog}
    (torn : Torn checksum process.wal record wal) (valid : record.Valid) :
    VouchedDisk checksum ⟨process.sstDir, some wal.file.contents⟩
      vouchers.committed where
  log := ⟨committedRecords history,
    torn.replay_eq vouched.coherent valid, vouched.records⟩
  files := vouched.files

/-- The process ends inside an event or behind it. -/
theorem Vouched.stopped
    (vouched : Vouched checksum process spec history vouchers)
    {event : Event} (valid : event.Valid)
    (stepped : process.step checksum rendering event = some next) :
    VouchedDisk checksum next.disk (vouchers.step event).committed := by
  by_cases sound : event.LogSound
  · obtain ⟨history', after⟩ := step_vouched vouched valid sound stepped
    exact after.disk
  · cases event with
    | insert key value fault =>
        have refused : ¬ accepts fault
            (8 + key.length + value.length) = true :=
          sound
        rcases Process.insert_cases vouched.coherent.atEnd stepped with
          ⟨tx, -, result⟩
        rw [if_neg refused] at result
        rcases result with ⟨wal, torn, rfl⟩
        rw [Vouchers.step, if_neg refused]
        exact vouched.tornDisk torn (Or.inl valid)
    | writeCommit clock fault =>
        have refused : ¬ accepts fault 16 = true := sound
        rcases Process.writeCommit_cases vouched.coherent.atEnd stepped with
          ⟨tx, ts, -, -, result⟩
        rw [if_neg refused] at result
        rcases result with ⟨wal, torn, rfl⟩
        rw [Vouchers.step, if_neg refused]
        exact vouched.tornDisk torn (Or.inr ⟨rfl, rfl⟩)
    | _ => exact absurd trivial sound

theorem exists_tableFiles {entries : List Entry}
    {files : List (Bytes × Bytes)}
    (vouched : ∀ file ∈ files, VouchedFile checksum entries file) :
    ∃ layers, List.Forall₂ (TableFile checksum) files layers ∧
      ∀ layer ∈ layers, Within entries layer := by
  induction files with
  | nil => exact ⟨[], List.Forall₂.nil, by simp⟩
  | cons file files induction =>
      obtain ⟨⟨layer, table, within⟩, others⟩ :=
        List.forall_mem_cons.mp vouched
      obtain ⟨layers, tables, all⟩ := induction others
      exact ⟨layer :: layers, List.Forall₂.cons table tables,
        List.forall_mem_cons.mpr ⟨within, all⟩⟩

/-- Opening such files succeeds and finds nothing else. -/
theorem VouchedDisk.opens {disk : Disk} {vouchers : Vouchers}
    (vouched : VouchedDisk checksum disk vouchers.committed)
    (memory : Nat → Nat → UInt8) (memtableSize : Nat) :
    ∃ db, Db.openDb checksum memory disk memtableSize = .ok (.ok db) ∧
      ∀ counter, ∃ spec, Vouched checksum (Process.start counter db) spec
        ⟨[], []⟩ { vouchers with own := [] } := by
  obtain ⟨records, replayed, known⟩ := vouched.log
  have reversed : ∀ file ∈ (Directory.filesWith SST disk.sstDir).reverse,
      VouchedFile checksum vouchers.committed file :=
    fun file member => vouched.files file (List.mem_reverse.mp member)
  obtain ⟨layers, tables, within⟩ := exists_tableFiles reversed
  obtain ⟨db, opened, result⟩ :=
    openDb_of_tableFiles tables (replayed memory) memtableSize
  refine ⟨db, opened, fun counter => ⟨_, {
    refines := result.start_refines counter
    coherent := ?_
    records := by simp [committedRecords, updates]
    files := ?_
    committed := ?_
    readers := fun map member => by cases member
    writer := rfl }⟩⟩
  · show Logged.Coherent checksum ⟨db.wal, _⟩
    rw [result.wal]
    exact Logged.created_coherent checksum
  · show ∀ file ∈ Directory.filesWith SST db.sstDir, _
    rw [result.sstDir, filesWith_clean]
    exact vouched.files
  · refine within_stack (List.forall_mem_cons.mpr ⟨?_, within⟩)
    rw [result.entries]
    exact within_insertAll_empty known

/-! ## Every read of every life -/

/-- The invariant with its witnesses left open. -/
def Honest (checksum : Checksum) (process : Process) (vouchers : Vouchers) :
    Prop :=
  ∃ spec history, Vouched checksum process spec history vouchers

theorem undergo_honest (honest : Honest checksum process vouchers)
    {incident : Incident} (allowed : incident.Allowed)
    (underwent : process.undergo checksum rendering incident =
      some next) :
    Honest checksum next (vouchers.undergo incident) := by
  obtain ⟨spec, history, vouched⟩ := honest
  cases incident with
  | perform event =>
      obtain ⟨history', after⟩ :=
        step_vouched vouched allowed.1 allowed.2 underwent
      exact ⟨_, history', after⟩
  | crash inside memory memtableSize =>
      -- the files of the process which has ended, and what they may hold
      have ended : ∀ (disk : Disk) (reached : Vouchers),
          VouchedDisk checksum disk reached.committed →
          (match Db.openDb checksum memory disk memtableSize with
            | .ok (.ok db) => some (Process.start 0 db)
            | _ => none) = some next →
          Honest checksum next { reached with own := [] } := by
        intro disk reached files started
        obtain ⟨db, opened, result⟩ := files.opens memory memtableSize
        rw [opened] at started
        cases started
        obtain ⟨spec', after⟩ := result 0
        exact ⟨spec', _, after⟩
      cases inside with
      | none => exact ended process.disk vouchers vouched.disk underwent
      | some event =>
          obtain ⟨stopped, stepped, started⟩ :=
            Option.bind_eq_some_iff.mp underwent
          exact ended stopped.disk (vouchers.step event)
            (vouched.stopped (allowed event rfl) stepped) started

theorem undergoAll_honest (honest : Honest checksum process vouchers)
    {incidents : List Incident}
    (allowed : ∀ incident ∈ incidents, incident.Allowed)
    (underwent : process.undergoAll checksum rendering incidents =
      some next) :
    Honest checksum next (vouchers.undergoAll incidents) :=
  @run_beside _ _ _ _ Vouchers.undergo (Honest checksum) Incident.Allowed
    (fun _ _ _ _ honest allowed underwent =>
      undergo_honest honest allowed underwent)
    process next vouchers incidents honest allowed underwent

/-- Lookups and scans which find nothing but the given entries. -/
structure ReadsWithin (get : Bytes → Checked (Option Bytes))
    (scan : Bytes → Checked (List Entry)) (entries : List Entry) :
    Prop where
  get_mem : ∀ key, ∃ found, get key = .ok found ∧
    ∀ value ∈ found, (key, value) ∈ entries
  scan_mem : ∀ stem, ∃ result, scan stem = .ok result ∧
    ∀ entry ∈ result, entry ∈ entries

theorem ReadsAs.within {get : Bytes → Checked (Option Bytes)}
    {scan : Bytes → Checked (List Entry)} {map : SortedMap Bytes Bytes}
    {entries : List Entry} (reads : ReadsAs get scan map)
    (within : Within entries map) : ReadsWithin get scan entries where
  get_mem key := ⟨_, reads.get_eq key, fun value found =>
    within key value found⟩
  scan_mem stem := by
    obtain ⟨result, scanned, -, selected⟩ := reads.scan_eq stem
    refine ⟨result, scanned, ?_⟩
    rintro ⟨key, value⟩ member
    exact within key value ((selected key value).mp member).1

end Steps

/--
Any number of processes on one directory, each ended at any moment: readers
find nothing but committed insertions, the writer finds its own beside them,
and the directory can always be opened again.
-/
theorem integrity_of_incidents {checksum : Checksum} {rendering : Rendering}
    {memory : Nat → Nat → UInt8} {memtableSize : Nat} {db : Db}
    (opened : Db.openDb checksum memory Disk.empty memtableSize =
      .ok (.ok db))
    {counter : UInt64} {incidents : List Incident} {process : Process}
    (allowed : ∀ incident ∈ incidents, incident.Allowed)
    (underwent : (Process.start counter db).undergoAll checksum rendering
      incidents = some process) :
    let vouchers := Vouchers.empty.undergoAll incidents
    (∀ reader ∈ process.beginReadonly :: process.readers,
      ReadsWithin (reader.get checksum) reader.scan vouchers.committed) ∧
    (∀ tx, process.writer = .active tx →
      ReadsWithin (tx.get checksum) tx.scan
        (vouchers.committed ++ vouchers.own)) ∧
    ∀ (inside : Option Event) (memory' : Nat → Nat → UInt8)
        (memtableSize' : Nat),
      (∀ event ∈ inside, event.Valid ∧
        (process.step checksum rendering event).isSome = true) →
      ∃ next, process.undergo checksum rendering
        (.crash inside memory' memtableSize') = some next := by
  cases opened
  have empty : VouchedDisk checksum Disk.empty Vouchers.empty.committed := {
    log := ⟨[], fun _ => rfl, by simp [updates]⟩
    files := by
      intro file member
      cases member }
  obtain ⟨fresh, opened, result⟩ := empty.opens memory memtableSize
  cases opened
  obtain ⟨spec, start⟩ := result counter
  obtain ⟨spec', history, vouched⟩ := undergoAll_honest
    ⟨spec, _, start⟩ allowed underwent
  refine ⟨?_, ?_, ?_⟩
  · intro reader member
    rcases List.mem_cons.mp member with rfl | earlier
    · exact (ReadOnlyTransaction.readsAs vouched.refines.shown).within
        vouched.committed
    · obtain ⟨place, inside, rfl⟩ := List.mem_iff_getElem.mp earlier
      have readers := vouched.refines.readersReadAs
      have bound := readers.length_eq ▸ inside
      exact ((List.forall₂_iff_get.mp readers).2 place inside bound).within
        (vouched.readers _ (List.get_mem _ _))
  · intro tx active
    obtain ⟨own, written, reads⟩ := vouched.refines.writerReadsAs active
    obtain ⟨named, -, -⟩ := vouched.writer_eq active
    cases written.symm.trans named
    refine reads.within ?_
    exact (vouched.committed.mono fun _ => List.mem_append_left _).insertAll
      fun _ => List.mem_append_right _
  · intro inside memory' memtableSize' possible
    cases inside with
    | none =>
        obtain ⟨db, opened, -⟩ := vouched.disk.opens memory' memtableSize'
        refine ⟨Process.start 0 db, ?_⟩
        simp only [Process.undergo, Option.bind_eq_bind, Option.bind_some,
          opened]
    | some event =>
        obtain ⟨valid, possible⟩ := possible event rfl
        obtain ⟨stopped, stepped⟩ := Option.isSome_iff_exists.mp possible
        obtain ⟨db, opened, -⟩ :=
          (vouched.stopped valid stepped).opens memory' memtableSize'
        refine ⟨Process.start 0 db, ?_⟩
        simp only [Process.undergo, stepped, Option.bind_eq_bind,
          Option.bind_some, opened]

/-- A commit, a second one whose record is torn, and the next process. -/
def tornSecondCommit : List Incident :=
  [.perform .begin, .perform (.insert [1] [2] none),
    .perform (.writeCommit 0 none), .perform .publish, .perform .finish,
    .perform .begin, .perform (.insert [1] [3] none),
    .crash (some (.writeCommit 0 (some 3))) (fun _ _ => 0) 100]

theorem integrity_of_incidents_tornSecondCommit :
    ∃ process, (Process.start 0 (Db.fresh 100)).undergoAll crc32 firstSecond
        tornSecondCommit = some process ∧
      ReadsWithin (process.beginReadonly.get crc32)
        process.beginReadonly.scan [([1], [2])] := by
  have finished : ((Process.start 0 (Db.fresh 100)).undergoAll crc32
      firstSecond tornSecondCommit).isSome = true := by
    decide +kernel
  obtain ⟨process, underwent⟩ := Option.isSome_iff_exists.mp finished
  have allowed : ∀ incident ∈ tornSecondCommit, incident.Allowed := by
    simp [tornSecondCommit, Incident.Allowed, Event.Valid, Event.LogSound,
      accepts]
  obtain ⟨readers, -, -⟩ := integrity_of_incidents
    (openDb_empty crc32 (fun _ _ => 0) 100) allowed underwent
  exact ⟨process, underwent, readers _ List.mem_cons_self⟩

end Cdoc
