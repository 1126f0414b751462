import Cdoc.Residue

/-!
# Processes in succession

A directory is opened by one process after the other.  Each of them may stop
at any moment, and the device of its log may fail in any record.

An account of such a history says what every read gives, now and after the
next opening.  The next opening finds the map of the tables with what was
committed to the log since it was last truncated.  An opening truncates the
log, so what it has replayed itself is in no file until the next flush.
-/

namespace Cdoc

open Cdoc.Foundation
open Cdoc.Sst

/-! ## Histories -/

/--
An event, or an opening of the files which the running process leaves.  The
counter is that of the process which opens them: zero in a new process, any
other value when the same process opens them again.
-/
inductive Turn where
  | perform (event : Event)
  | reopen (counter : UInt64) (memory : Nat → Nat → UInt8)
      (memtableSize : Nat)

namespace Process

variable (checksum : Checksum) (rendering : Rendering)

/-- The process after a turn, if the turn is possible. -/
def turn (self : Process) : Turn → Option Process
  | .perform event => self.step checksum rendering event
  | .reopen counter memory memtableSize =>
      match Db.openDb checksum memory self.disk memtableSize with
      | .ok (.ok db) => some (start counter db)
      | _ => none

/-- The process after a list of turns. -/
def turns (self : Process) (turns : List Turn) : Option Process :=
  turns.foldlM (turn checksum rendering) self

end Process

/-- Keys and values which the log can represent. -/
def Turn.Valid : Turn → Prop
  | .perform event => event.Valid
  | .reopen .. => True

/-- A flush is named above all tables which are there. -/
def Process.NewestTurn (rendering : Rendering) (self : Process) :
    Turn → Prop
  | .perform event => self.NewestName rendering event
  | .reopen .. => True

namespace Tail

/-- An opening must not find that something was appended to a residue. -/
def turn (self : Tail) : Turn → Option Tail
  | .perform event => self.step event
  | .reopen .. => if self = .spoiled then none else some .clean

/-- The tail after a list of turns. -/
def turns (self : Tail) (turns : List Turn) : Option Tail :=
  turns.foldlM turn self

end Tail

/-! ## Accounts -/

/--
The maps of the running process, the insertions which the log holds, the map
of the tables in the directory, and what the last opening has replayed and
no flush has written.
-/
structure Account where
  spec : Spec
  ledger : Ledger
  tables : SortedMap Bytes Bytes
  replayed : SortedMap Bytes Bytes

namespace Account

/-- An opening which finds these tables and replays these insertions. -/
def opened (tables replayed : SortedMap Bytes Bytes) : Account :=
  ⟨Spec.start (tables.overlay replayed), Ledger.empty, tables, replayed⟩

/-- What the next opening finds. -/
def saved (self : Account) : SortedMap Bytes Bytes :=
  self.tables.insertAll self.ledger.logged

/-- A table holds everything committed once it has its name. -/
def tablesAfter (self : Account) : Event → SortedMap Bytes Bytes
  | .rename => self.spec.durable
  | _ => self.tables

/-- A flush which is complete has written what was replayed. -/
def replayedAfter (self : Account) : Event → SortedMap Bytes Bytes
  | .resetLog => SortedMap.empty
  | _ => self.replayed

/-- The account after a turn. -/
def turn (self : Account) : Turn → Account
  | .perform event =>
      ⟨self.spec.step event, self.ledger.step event,
        self.tablesAfter event, self.replayedAfter event⟩
  | .reopen .. =>
      opened self.tables (SortedMap.empty.insertAll self.ledger.logged)

/-- The account of a list of turns. -/
def turns (self : Account) (turns : List Turn) : Account :=
  turns.foldl turn self

end Account

/--
Every read is that of the account: of the readers, of the writer, of the
next reader, and after the next opening.  That opening finds the durable map
where nothing is left in memory only.
-/
structure ReadsByAccount (checksum : Checksum) (process : Process)
    (account : Account) (tail : Tail) : Prop where
  readers : List.Forall₂
    (fun reader map => ReadsAs (reader.get checksum) reader.scan map)
    process.readers account.spec.readers
  committed : ReadsAs (process.beginReadonly.get checksum)
    process.beginReadonly.scan account.spec.committed
  writer : ∀ tx, process.writer = .active tx →
    ∃ own, account.spec.writer = some own ∧
      ReadsAs (tx.get checksum) tx.scan own.view
  reopened : tail ≠ .spoiled → ∀ memory memtableSize, ∃ recovered,
    Db.openDb checksum memory process.disk memtableSize =
        .ok (.ok recovered) ∧
      ReadsAs (recovered.beginReadonly.get checksum)
        recovered.beginReadonly.scan account.saved
  durable : account.replayed = SortedMap.empty →
    account.saved = account.spec.durable

/-! ## The invariant -/

section Turns

variable {checksum : Checksum} {rendering : Rendering}
variable {self next : Process} {spec : Spec} {ledger : Ledger}
variable {account : Account} {tail tail' : Tail}

/-- The insertions of the open transaction, in both accounts. -/
def Agrees (process : Process) (spec : Spec) (ledger : Ledger) : Prop :=
  ∀ tx, process.writer = .active tx →
    ∃ own, spec.writer = some own ∧ own.inserts = ledger.pending

/-- The account of a process and its files. -/
structure Accounts (checksum : Checksum) (process : Process)
    (account : Account) (tail : Tail) : Prop where
  refines : Refines checksum process account.spec
  log : LogHolds checksum process account.ledger tail
  agrees : Agrees process account.spec account.ledger
  held : ∃ layers,
    Held checksum process account.spec account.replayed
        account.ledger.logged layers ∧
      account.tables = SortedMap.stack (process.writer.written layers)

theorem step_agrees (agrees : Agrees self spec ledger) (atEnd :
      self.wal.file.AtEnd) {event : Event}
    (stepped : self.step checksum rendering event = some next) :
    Agrees next (spec.step event) (ledger.step event) := by
  intro tx active
  cases event with
  | beginReadonly =>
      cases stepped
      exact agrees tx active
  | begin => exact ⟨_, rfl, rfl⟩
  | insert key value fault =>
      obtain ⟨before, activeBefore, result⟩ :=
        Process.insert_cases atEnd stepped
      obtain ⟨own, writer, inserts⟩ := agrees before activeBefore
      simp only [Spec.step, Ledger.step]
      split
      · exact ⟨_, by rw [writer]; rfl, by rw [← inserts]⟩
      · exact ⟨own, writer, inserts⟩
  | abort | drop =>
      obtain ⟨_, wal, _, rfl⟩ := Process.abort_cases stepped
      cases active
  | writeCommit clock fault =>
      obtain ⟨before, ts, _, _, result⟩ :=
        Process.writeCommit_cases atEnd stepped
      split at result
      · subst result
        cases active
      · obtain ⟨wal, _, rfl⟩ := result
        cases active
  | publish =>
      obtain ⟨_, _, rfl⟩ := Process.publish_cases stepped
      cases active
  | finish =>
      obtain ⟨_, _, rfl⟩ := Process.finish_cases stepped
      cases active
  | startFlush clock =>
      obtain ⟨_, _, _, _, _, _, _, _, rfl⟩ :=
        Process.startFlush_cases stepped
      cases active
  | writeTmp count =>
      obtain ⟨_, _, _, _, _, rfl⟩ := Process.writeTmp_cases stepped
      cases active
  | rename =>
      obtain ⟨_, _, _, _, _, _, rfl⟩ := Process.rename_cases stepped
      cases active
  | swap =>
      obtain ⟨_, _, _, _, _, _, _, rfl⟩ := Process.swap_cases stepped
      cases active
  | resetLog =>
      obtain ⟨_, _, rfl⟩ := Process.resetLog_cases stepped
      cases active
  | fail =>
      obtain ⟨_, rfl⟩ := Process.fail_cases stepped
      cases active

/-- Events which neither name a table nor release the lock of a flush. -/
theorem Process.step_written {event : Event}
    (stepped : self.step checksum rendering event = some next)
    (atEnd : self.wal.file.AtEnd) (layers : List (SortedMap Bytes Bytes))
    (frame : event ≠ .rename ∧ event ≠ .resetLog ∧ event ≠ .fail) :
    next.writer.written layers = self.writer.written layers := by
  cases event with
  | beginReadonly =>
      cases stepped
      rfl
  | begin =>
      simp only [Process.step] at stepped
      split at stepped
      · rename_i idle
        cases stepped
        rw [idle]
        rfl
      · cases stepped
  | insert key value fault =>
      obtain ⟨tx, active, result⟩ := Process.insert_cases atEnd stepped
      split at result
      · obtain ⟨fork, -, rfl⟩ := result
        rw [active]
        rfl
      · obtain ⟨wal, -, rfl⟩ := result
        rfl
  | abort | drop =>
      obtain ⟨⟨tx, active⟩, wal, -, rfl⟩ := Process.abort_cases stepped
      rw [active]
      rfl
  | writeCommit clock fault =>
      obtain ⟨tx, ts, active, -, result⟩ :=
        Process.writeCommit_cases atEnd stepped
      rw [active]
      split at result
      · subst result
        rfl
      · obtain ⟨wal, -, rfl⟩ := result
        rfl
  | publish =>
      obtain ⟨tx, logged, rfl⟩ := Process.publish_cases stepped
      rw [logged]
      rfl
  | finish =>
      obtain ⟨tx, published, rfl⟩ := Process.finish_cases stepped
      rw [published]
      rfl
  | startFlush clock =>
      obtain ⟨tx, ts, name, bytes, published, -, -, -, rfl⟩ :=
        Process.startFlush_cases stepped
      rw [published]
      rfl
  | writeTmp count =>
      obtain ⟨tx, name, written, remaining, flushing, rfl⟩ :=
        Process.writeTmp_cases stepped
      rw [flushing]
      rfl
  | swap =>
      obtain ⟨tx, name, contents, reader, renamed, -, -, rfl⟩ :=
        Process.swap_cases stepped
      rw [renamed]
      rfl
  | rename => exact absurd rfl frame.1
  | resetLog => exact absurd rfl frame.2.1
  | fail => exact absurd rfl frame.2.2

/-- The tables and the memory table, whatever the device does. -/
theorem held_frame {replayed : SortedMap Bytes Bytes}
    (refines : Refines checksum self spec)
    (agrees : Agrees self spec ledger) {event : Event}
    (newest : self.NewestName rendering event)
    {layers : List (SortedMap Bytes Bytes)}
    (held : Held checksum self spec replayed ledger.logged layers)
    (stepped : self.step checksum rendering event = some next)
    (frame : event ≠ .rename ∧ event ≠ .resetLog ∧ event ≠ .fail) :
    Held checksum next (spec.step event) replayed
      (ledger.step event).logged layers := by
  cases event with
  | beginReadonly =>
      cases stepped
      exact ⟨held.files, held.front, held.durable, held.writer⟩
  | begin =>
      simp only [Process.step] at stepped
      split at stepped
      · rename_i idle
        cases stepped
        exact held.unlogged (Or.inl idle) (Or.inr ⟨_, rfl⟩) self.wal
          self.counter _
      · cases stepped
  | insert key value fault =>
      obtain ⟨tx, active, result⟩ :=
        Process.insert_cases refines.atEnd stepped
      simp only [Spec.step, Ledger.step]
      split at result
      · rename_i accepted
        obtain ⟨fork, _, rfl⟩ := result
        rw [if_pos accepted, if_pos accepted]
        exact held.unlogged (Or.inr ⟨tx, active⟩) (Or.inr ⟨_, rfl⟩) _
          self.counter _
      · rename_i refused
        obtain ⟨wal, _, rfl⟩ := result
        rw [if_neg refused, if_neg refused]
        exact held.unlogged (Or.inr ⟨tx, active⟩) (Or.inr ⟨tx, active⟩)
          wal self.counter _
  | abort | drop =>
      obtain ⟨⟨tx, active⟩, wal, _, rfl⟩ := Process.abort_cases stepped
      exact held.unlogged (Or.inr ⟨tx, active⟩) (Or.inl rfl) wal
        self.counter none
  | writeCommit clock fault =>
      obtain ⟨tx, ts, active, _, result⟩ :=
        Process.writeCommit_cases refines.atEnd stepped
      obtain ⟨snapshot, inserts, own, forked⟩ := refines.writer_eq active
      obtain ⟨own', writer, pending⟩ := agrees tx active
      have same : inserts = ledger.pending := by
        rw [own] at writer
        cases writer
        exact pending
      have shown : spec.committed = spec.durable :=
        (held.at_writer active).writer
      split at result
      · rename_i accepted
        subst result
        rw [Spec.step_writeCommit accepted own shown, Ledger.step,
          if_pos accepted, ← same]
        exact held_logged held active snapshot own forked _ ts.val
      · rename_i refused
        obtain ⟨wal, _, rfl⟩ := result
        rw [Spec.step, if_neg refused, Ledger.step, if_neg refused]
        exact held.unlogged (Or.inr ⟨tx, active⟩) (Or.inl rfl) wal ts.val
          none
  | publish => exact held_publish held stepped
  | finish => exact held_finish held refines stepped
  | startFlush clock => exact held_startFlush held newest stepped
  | writeTmp count => exact held_writeTmp held stepped
  | swap => exact held_swap held stepped
  | rename => exact absurd rfl frame.1
  | resetLog => exact absurd rfl frame.2.1
  | fail => exact absurd rfl frame.2.2

/-- What the tables hold is what the account says of them. -/
theorem step_held (refines : Refines checksum self account.spec)
    (agrees : Agrees self account.spec account.ledger) {event : Event}
    (newest : self.NewestName rendering event)
    {layers : List (SortedMap Bytes Bytes)}
    (held : Held checksum self account.spec account.replayed
      account.ledger.logged layers)
    (tables : account.tables = SortedMap.stack (self.writer.written layers))
    (stepped : self.step checksum rendering event = some next) :
    ∃ layers', Held checksum next (account.spec.step event)
        (account.replayedAfter event) (account.ledger.step event).logged
        layers' ∧
      account.tablesAfter event =
        SortedMap.stack (next.writer.written layers') := by
  cases event with
  | rename =>
      obtain ⟨tx, name, written, contents, flushing, found, rfl⟩ :=
        Process.rename_cases stepped
      exact ⟨layers, held_rename held refines stepped,
        (held.at_writer flushing).durable⟩
  | resetLog =>
      obtain ⟨tx, swapped, rfl⟩ := Process.resetLog_cases stepped
      rw [swapped] at tables
      exact ⟨_, held_resetLog held refines swapped _, tables⟩
  | fail =>
      obtain ⟨layers', after, same⟩ := held_fail held refines stepped
      exact ⟨layers', after, tables.trans (congrArg SortedMap.stack same)⟩
  | _ =>
      have same := Process.step_written stepped refines.atEnd layers
        (by simp)
      exact ⟨layers, held_frame refines agrees newest held stepped
        (by simp), tables.trans (congrArg SortedMap.stack same.symm)⟩

theorem step_accounts (accounts : Accounts checksum self account tail)
    {event : Event} (valid : event.Valid)
    (newest : self.NewestName rendering event)
    (followed : tail.step event = some tail')
    (stepped : self.step checksum rendering event = some next) :
    Accounts checksum next (account.turn (.perform event)) tail' := by
  obtain ⟨layers, held, tables⟩ := accounts.held
  exact {
    refines := step_refines accounts.refines valid.fits stepped
    log := step_logHolds accounts.log valid followed stepped
    agrees := step_agrees accounts.agrees accounts.refines.atEnd stepped
    held := step_held accounts.refines accounts.agrees newest held tables
      stepped }

/-! ## Openings -/

/-- The account of a process which has just opened its files. -/
theorem start_accounts {memory : Nat → Nat → UInt8} {disk : Disk}
    {layers : List (SortedMap Bytes Bytes)} {memtableSize : Nat} {db : Db}
    (tables : TableFiles checksum disk.sstDir layers)
    (opened : Db.openDb checksum memory disk memtableSize = .ok (.ok db))
    (counter : UInt64) :
    Accounts checksum (Process.start counter db)
      (.opened (SortedMap.stack layers) db.readable.active.entries)
      .clean := by
  obtain ⟨records, replayed⟩ := replayed_of_openDb opened
  obtain ⟨same, reopened, result⟩ :=
    openDb_of_tableFiles tables replayed memtableSize
  rw [opened] at reopened
  cases reopened
  have files : TableFiles checksum db.sstDir layers := by
    rw [result.sstDir]
    exact tableFiles_clean tables
  exact {
    refines := result.start_refines counter
    log := logHolds_start opened counter
    agrees := by
      intro tx active
      cases active
    held := ⟨layers, ⟨files, rfl, rfl, rfl⟩, rfl⟩ }

/-- The next opening finds what is saved. -/
theorem Accounts.recovers (accounts : Accounts checksum self account tail)
    (unspoiled : tail ≠ .spoiled) :
    Recovers checksum self.disk account.saved := by
  obtain ⟨layers, held, tables⟩ := accounts.held
  obtain ⟨records, insertions, replays⟩ := accounts.log.replays unspoiled
  rw [Account.saved, tables]
  exact held.recovers_saved rfl insertions replays

theorem reopen_accounts (accounts : Accounts checksum self account tail)
    (unspoiled : tail ≠ .spoiled) {counter : UInt64}
    {memory : Nat → Nat → UInt8} {memtableSize : Nat}
    (reopened : self.turn checksum rendering
      (.reopen counter memory memtableSize) = some next) :
    Accounts checksum next
      (account.turn (.reopen counter memory memtableSize)) .clean := by
  obtain ⟨layers, held, tables⟩ := accounts.held
  obtain ⟨records, insertions, replays⟩ := accounts.log.replays unspoiled
  obtain ⟨db, opened, result⟩ := @openDb_of_tableFiles checksum memory
    self.disk _ records held.files (replays memory) memtableSize
  simp only [Process.turn, opened] at reopened
  cases reopened
  have start := start_accounts held.files opened counter
  rw [← tables, result.entries, insertions] at start
  exact start

/-! ## Whole histories -/

theorem turn_accounts (accounts : Accounts checksum self account tail)
    {turn : Turn} (valid : turn.Valid)
    (newest : self.NewestTurn rendering turn)
    (followed : tail.turn turn = some tail')
    (stepped : self.turn checksum rendering turn = some next) :
    Accounts checksum next (account.turn turn) tail' := by
  cases turn with
  | perform event =>
      exact step_accounts accounts valid newest followed stepped
  | reopen counter memory memtableSize =>
      simp only [Tail.turn] at followed
      split at followed
      · cases followed
      · rename_i unspoiled
        cases followed
        exact reopen_accounts accounts unspoiled stepped

theorem turns_accounts (accounts : Accounts checksum self account tail)
    {turns : List Turn} (valid : ∀ turn ∈ turns, turn.Valid)
    (newest : Along (Process.turn checksum rendering)
      (Process.NewestTurn rendering) self turns)
    (followed : tail.turns turns = some tail')
    (ran : self.turns checksum rendering turns = some next) :
    Accounts checksum next (account.turns turns) tail' := by
  induction turns generalizing self account tail with
  | nil =>
      cases ran
      cases followed
      exact accounts
  | cons turn turns induction =>
      obtain ⟨here, others⟩ := List.forall_mem_cons.mp valid
      obtain ⟨middle, now, later⟩ := Option.bind_eq_some_iff.mp ran
      obtain ⟨between, first, rest⟩ := Option.bind_eq_some_iff.mp followed
      exact induction (turn_accounts accounts here newest.1 first now)
        others (newest.2 middle now) rest later

theorem Accounts.reads (accounts : Accounts checksum self account tail) :
    ReadsByAccount checksum self account tail where
  readers := accounts.refines.readersReadAs
  committed := ReadOnlyTransaction.readsAs accounts.refines.shown
  writer := fun _ active => accounts.refines.writerReadsAs active
  reopened := by
    intro unspoiled memory memtableSize
    obtain ⟨recovered, opened, shown⟩ :=
      accounts.recovers unspoiled memory memtableSize
    exact ⟨recovered, opened, ReadOnlyTransaction.readsAs shown⟩
  durable := by
    intro nothing
    obtain ⟨layers, held, tables⟩ := accounts.held
    rw [nothing] at held
    rw [Account.saved, tables]
    exact held.saved_eq

end Turns

end Cdoc
