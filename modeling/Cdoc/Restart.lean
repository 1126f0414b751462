import Cdoc.Crash

/-!
# Restarts

A database is closed when no transaction is open, and opened again on the
same directory, by the same process or by a new one whose counter starts at
zero.  Opening replays the log into the memory table and truncates it, so
what was replayed is in no file until the next flush.  A second restart
without one loses it.

The runs which keep every committed transaction are those in which nothing
of this kind is in the memory table at a restart, and in which each flush is
named above the tables which are there.
-/

namespace Cdoc

open Cdoc.Foundation
open Cdoc.Sst
open WriteAheadLog (History Logged)

/-- An event, or a close followed by an opening of the same directory. -/
inductive Action where
  | perform (event : Event)
  | reopen (newProcess : Bool) (memory : Nat → Nat → UInt8)
      (memtableSize : Nat)

/-- No transaction holds the lock. -/
def Writer.isIdle : Writer → Bool
  | .idle => true
  | _ => false

theorem Writer.eq_idle_of_isIdle {writer : Writer}
    (idle : writer.isIdle = true) : writer = .idle := by
  cases writer with
  | idle => rfl
  | _ => cases idle

namespace Process

variable (checksum : Checksum) (rendering : Rendering)

/-- A clean close and `Db::open`; the counter survives within a process. -/
def reopen (self : Process) (newProcess : Bool)
    (memory : Nat → Nat → UInt8) (memtableSize : Nat) : Option Process :=
  match self.writer with
  | .idle =>
      match Db.openDb checksum memory self.disk memtableSize with
      | .ok (.ok db) =>
          some (start (if newProcess then 0 else self.counter) db)
      | _ => none
  | _ => none

/-- The process after an action, if the action is possible. -/
def act (self : Process) : Action → Option Process
  | .perform event => self.step checksum rendering event
  | .reopen newProcess memory memtableSize =>
      self.reopen checksum newProcess memory memtableSize

/-- The process after a list of actions. -/
def acts (self : Process) (actions : List Action) : Option Process :=
  actions.foldlM (act checksum rendering) self

end Process

namespace Spec

/-- A restart keeps the durable map and nothing else. -/
def act (self : Spec) : Action → Spec
  | .perform event => self.step event
  | .reopen _ _ _ => start self.durable

/-- The maps after a list of actions. -/
def acts (self : Spec) (actions : List Action) : Spec :=
  actions.foldl act self

end Spec

/-! ## Conditions -/

/-- Insertions which the log can represent, and no failing device. -/
def Action.Clean : Action → Prop
  | .perform event => event.Valid ∧ event.Sound
  | .reopen _ _ _ => True

/--
Each key of the memory table has a committed record in the log, or the
tables give the same value for it.
-/
def Process.Recoverable (checksum : Checksum)
    (memory : Nat → Nat → UInt8) (self : Process) : Prop :=
  ∀ key value, self.readable.active.get key = some value →
    (∃ records, WriteAheadLog.replay checksum memory
        self.wal.file.contents = .ok records ∧
      key ∈ (updates records).map Prod.fst) ∨
    getFromTables checksum key self.readable.sstables = .ok (some value)

/-- What an action must not find when it starts. -/
def Process.Keeps (checksum : Checksum) (rendering : Rendering)
    (self : Process) : Action → Prop
  | .perform event => self.NewestName rendering event
  | .reopen _ memory _ => self.Recoverable checksum memory

/-- Each action of a run meets its condition when it starts. -/
def Process.KeepsAll (checksum : Checksum) (rendering : Rendering) :
    Process → List Action → Prop
  | _, [] => True
  | self, action :: actions =>
      self.Keeps checksum rendering action ∧
        ∀ next, self.act checksum rendering action = some next →
          Process.KeepsAll checksum rendering next actions

/-! ## One restart -/

section Restarts

variable {checksum : Checksum} {rendering : Rendering}
variable {self next : Process} {spec : Spec}
variable {replayed : SortedMap Bytes Bytes} {history : History}
variable {layers : List (SortedMap Bytes Bytes)}

/--
A restart keeps the map exactly when the memory table can be recovered: the
map of the log over the tables is the map of the memory table over them.
-/
theorem stack_recovered_iff
    (persists : Persists checksum self spec replayed history layers)
    (idle : self.writer = .idle) (memory : Nat → Nat → UInt8) :
    SortedMap.stack (SortedMap.empty.insertAll
        (updates (committedRecords history)) :: layers) = spec.durable ↔
      self.Recoverable checksum memory := by
  have before := persists.at_writer idle
  have durable : spec.durable =
      SortedMap.stack (self.readable.active.entries :: layers) :=
    before.durable
  have tables (key : Bytes) :
      getFromTables checksum key self.readable.sstables =
        .ok ((SortedMap.stack layers).get key) :=
    getFromTables_eq before.tables key
  have log : WriteAheadLog.replay checksum memory
      self.wal.file.contents = .ok (committedRecords history) :=
    replay_of_coherent persists.coherent memory
  -- the memory table is the log over what the opening has replayed
  have active : self.readable.active.entries = replayed.overlay
      (SortedMap.empty.insertAll
        (updates (committedRecords history))) := by
    rw [SortedMap.overlay_insertAll, SortedMap.overlay_empty]
    exact before.front
  have get_active (key : Bytes) : self.readable.active.get key =
      (replayed.overlay (SortedMap.empty.insertAll
        (updates (committedRecords history)))).get key := by
    rw [← active]
    rfl
  rw [durable, active, SortedMap.stack, SortedMap.stack,
    SortedMap.overlay_eq_overlay_overlay_iff]
  apply forall_congr'
  intro key
  apply forall_congr'
  intro value
  rw [get_active, tables, Ne, SortedMap.get_insertAll_eq_none_iff,
    not_not, log]
  simp

/-- Opening the files of an idle process succeeds. -/
theorem Persists.opened
    (persists : Persists checksum self spec replayed history layers)
    (idle : self.writer = .idle) (memory : Nat → Nat → UInt8)
    (memtableSize : Nat) :
    ∃ db, Db.openDb checksum memory self.disk memtableSize =
        .ok (.ok db) ∧
      Opened checksum self.disk memtableSize layers
        (committedRecords history) db := by
  have before := persists.at_writer idle
  have log : replayedRecords checksum memory self.disk =
      .ok (committedRecords history) :=
    replay_of_coherent persists.coherent memory
  exact openDb_of_tableFiles before.files log memtableSize

/-- What holds in every state of a run which meets the conditions. -/
structure Kept (checksum : Checksum) (process : Process) (spec : Spec) :
    Prop where
  refines : Refines checksum process spec
  persists : ∃ replayed history layers,
    Persists checksum process spec replayed history layers

/-- A restart which meets the condition keeps the map. -/
theorem reopen_kept (kept : Kept checksum self spec)
    {memory : Nat → Nat → UInt8}
    (recoverable : self.Recoverable checksum memory)
    {newProcess : Bool} {memtableSize : Nat}
    (reopened : self.reopen checksum newProcess memory memtableSize =
      some next) :
    Kept checksum next (Spec.start spec.durable) := by
  rcases kept.persists with ⟨replayed, history, layers, persists⟩
  unfold Process.reopen at reopened
  split at reopened
  · rename_i idle
    rcases persists.opened idle memory memtableSize with
      ⟨db, opened, result⟩
    rw [opened] at reopened
    cases reopened
    have map := (stack_recovered_iff persists idle memory).mpr recoverable
    rw [← result.entries] at map
    refine ⟨?_, db.readable.active.entries, ⟨[], []⟩, layers, ?_⟩
    · rw [← map]
      exact result.start_refines _
    · exact {
        coherent := by
          show Logged.Coherent checksum ⟨db.wal, _⟩
          rw [result.wal]
          exact Logged.created_coherent checksum
        files := by
          show TableFiles checksum db.sstDir layers
          rw [result.sstDir]
          exact tableFiles_clean (persists.at_writer idle).files
        tables := result.answers
        front := rfl
        durable := map.symm
        writer := ⟨rfl, rfl⟩ }
  · cases reopened

/-! ## Runs with restarts -/

theorem act_kept (kept : Kept checksum self spec) {action : Action}
    (clean : action.Clean) (keeps : self.Keeps checksum rendering action)
    (acted : self.act checksum rendering action = some next) :
    Kept checksum next (spec.act action) := by
  cases action with
  | perform event =>
      rcases kept.persists with ⟨replayed, history, layers, persists⟩
      rcases step_persists persists kept.refines clean.1 clean.2 keeps
        acted with ⟨replayed', history', layers', result, -⟩
      exact ⟨step_refines kept.refines clean.1.fits acted,
        replayed', history', layers', result⟩
  | reopen newProcess memory memtableSize =>
      exact reopen_kept kept keeps acted

theorem acts_kept (kept : Kept checksum self spec)
    {actions : List Action} (clean : ∀ action ∈ actions, action.Clean)
    (keeps : self.KeepsAll checksum rendering actions)
    (acted : self.acts checksum rendering actions = some next) :
    Kept checksum next (spec.acts actions) := by
  induction actions generalizing self spec with
  | nil =>
      cases acted
      exact kept
  | cons action actions induction =>
      rcases Option.bind_eq_some_iff.mp acted with
        ⟨middle, first, others⟩
      exact induction
        (act_kept kept (clean action List.mem_cons_self) keeps.1 first)
        (fun other member => clean other (List.mem_cons_of_mem _ member))
        (keeps.2 middle first) others

/-- What the next opening finds, and when it is the durable map. -/
theorem Kept.next_open (kept : Kept checksum self spec)
    (idle : self.writer = .idle) (newProcess : Bool)
    (memory : Nat → Nat → UInt8) (memtableSize : Nat) :
    ∃ next, self.act checksum rendering
        (.reopen newProcess memory memtableSize) = some next ∧
      ((∀ key, next.beginReadonly.get checksum key =
          .ok (spec.durable.get key)) ↔
        self.Recoverable checksum memory) := by
  rcases kept.persists with ⟨replayed, history, layers, persists⟩
  rcases persists.opened idle memory memtableSize with
    ⟨db, opened, result⟩
  refine ⟨Process.start (if newProcess then 0 else self.counter) db,
    ?_, ?_⟩
  · simp only [Process.act, Process.reopen, idle, opened]
  · rw [← stack_recovered_iff persists idle memory, ← result.entries]
    have shown : Shows checksum db.readable (SortedMap.stack
        (db.readable.active.entries :: layers)) :=
      ⟨layers, result.answers, rfl⟩
    have reads (key : Bytes) :
        db.beginReadonly.get checksum key = .ok ((SortedMap.stack
          (db.readable.active.entries :: layers)).get key) :=
      ReadOnlyTransaction.get_eq shown key
    constructor
    · intro same
      apply SortedMap.ext_get
      intro key
      exact Except.ok.inj ((reads key).symm.trans (same key))
    · intro same key
      rw [← same]
      exact reads key

/-- The first restart meets the conditions. -/
theorem FirstRun.keepsAll (first : FirstRun checksum rendering self spec)
    {events : List Event}
    (newest : Along (Process.step checksum rendering)
      (Process.NewestName rendering) self events)
    (valid : ∀ event ∈ events, event.Valid)
    (sound : ∀ event ∈ events, event.Sound)
    (ran : self.run checksum rendering events = some next)
    (idle : next.writer = .idle) (newProcess : Bool)
    (memory : Nat → Nat → UInt8) (memtableSize : Nat) :
    self.KeepsAll checksum rendering (events.map .perform ++
      [.reopen newProcess memory memtableSize]) := by
  induction events generalizing self spec with
  | nil =>
      cases ran
      refine ⟨?_, fun _ _ => trivial⟩
      rcases first.persists with ⟨history, layers, persists⟩
      have before := persists.at_writer idle
      apply (stack_recovered_iff persists idle memory).mp
      rw [before.durable, before.front]
  | cons event events induction =>
      rcases Option.bind_eq_some_iff.mp ran with ⟨middle, now, later⟩
      refine ⟨newest.1, ?_⟩
      intro other stepped
      have same : middle = other :=
        Option.some.inj (now.symm.trans stepped)
      subst same
      exact induction
        (step_firstRun first (valid event List.mem_cons_self)
          (sound event List.mem_cons_self) newest.1 now)
        (newest.2 middle now)
        (fun other member => valid other (List.mem_cons_of_mem _ member))
        (fun other member => sound other (List.mem_cons_of_mem _ member))
        later

end Restarts

/--
Every run from an empty directory which meets the conditions: readers find
the committed map, and the next opening succeeds and gives the durable map
exactly when its own condition is met.
-/
theorem reads_of_restarts {checksum : Checksum} {rendering : Rendering}
    {memory : Nat → Nat → UInt8} {memtableSize : Nat} {db : Db}
    (opened : Db.openDb checksum memory Disk.empty memtableSize =
      .ok (.ok db))
    {counter : UInt64} {actions : List Action} {process : Process}
    (clean : ∀ action ∈ actions, action.Clean)
    (keeps : (Process.start counter db).KeepsAll checksum rendering
      actions)
    (acted : (Process.start counter db).acts checksum rendering actions =
      some process) :
    let spec := (Spec.start SortedMap.empty).acts actions
    (∀ key, process.beginReadonly.get checksum key =
      .ok (spec.committed.get key)) ∧
    (process.writer = .idle → spec.committed = spec.durable ∧
      ∀ newProcess memory' memtableSize', ∃ next,
        process.act checksum rendering
          (.reopen newProcess memory' memtableSize') = some next ∧
        ((∀ key, next.beginReadonly.get checksum key =
            .ok (spec.durable.get key)) ↔
          process.Recoverable checksum memory')) := by
  rw [openDb_empty] at opened
  cases opened
  have start := start_firstRun checksum rendering counter memtableSize
  rcases start.persists with ⟨history, layers, persists⟩
  have kept := acts_kept ⟨start.refines, _, history, layers, persists⟩
    clean keeps acted
  refine ⟨ReadOnlyTransaction.get_eq kept.refines.shown, ?_⟩
  intro idle
  constructor
  · rcases kept.persists with ⟨replayed, history', layers', result⟩
    exact (result.at_writer idle).writer.2
  · exact kept.next_open idle

/-- A commit, and two restarts without a flush. -/
def commitAndRestarts : List Action :=
  [.perform .begin, .perform (.insert [1] [2] none),
    .perform (.writeCommit 0 none), .perform .publish, .perform .finish,
    .reopen true (fun _ _ => 0) 100, .reopen true (fun _ _ => 0) 100]

/-- The second restart loses the committed key. -/
theorem commitAndRestarts_lost :
    ∃ process, Db.openDb crc32 (fun _ _ => 0) Disk.empty 100 =
        .ok (.ok (Db.fresh 100)) ∧
      (∀ action ∈ commitAndRestarts, action.Clean) ∧
      (Process.start 0 (Db.fresh 100)).acts crc32 firstSecond
        commitAndRestarts = some process ∧
      process.beginReadonly.get crc32 [1] = .ok none ∧
      ((Spec.start SortedMap.empty).acts
        commitAndRestarts).committed.get [1] = some [2] := by
  have clean : ∀ action ∈ commitAndRestarts, action.Clean := by
    simp [commitAndRestarts, Action.Clean, Event.Valid, Event.Sound,
      accepts]
  have lost : (((Process.start 0 (Db.fresh 100)).acts crc32 firstSecond
      commitAndRestarts).map fun process =>
        process.beginReadonly.get crc32 [1]) = some (.ok none) := by
    decide +kernel
  rcases Option.map_eq_some_iff.mp lost with ⟨process, acted, read⟩
  exact ⟨process, openDb_empty _ _ _, clean, acted, read, rfl⟩

theorem reads_of_restarts_flushedCommit :
    ∃ process,
      (Process.start 0 (Db.fresh 1)).acts crc32 firstSecond
          (flushedCommit.map .perform ++ [.reopen true (fun _ _ => 0) 1]) =
        some process ∧
      process.beginReadonly.get crc32 [1] = .ok (some [2]) := by
  have finished : ((Process.start 0 (Db.fresh 1)).acts crc32 firstSecond
      (flushedCommit.map .perform ++
        [.reopen true (fun _ _ => 0) 1])).isSome = true := by
    decide +kernel
  have closed : (((Process.start 0 (Db.fresh 1)).run crc32 firstSecond
      flushedCommit).any fun process => process.writer.isIdle) = true := by
    decide +kernel
  rcases Option.isSome_iff_exists.mp finished with ⟨process, acted⟩
  rcases (Option.any_eq_true _ _).mp closed with ⟨last, ran, idle⟩
  have first := start_firstRun crc32 firstSecond 0 1
  have keeps := first.keepsAll
    (first.dated.along_of_ordered firstSecond_ordered flushedCommit)
    (by simp [flushedCommit, Event.Valid])
    (by simp [flushedCommit, Event.Sound, accepts])
    ran (Writer.eq_idle_of_isIdle idle) true (fun _ _ => 0) 1
  have clean : ∀ action ∈ flushedCommit.map Action.perform ++
      [.reopen true (fun _ _ => 0) 1], action.Clean := by
    simp [flushedCommit, Action.Clean, Event.Valid, Event.Sound, accepts]
  rcases reads_of_restarts (openDb_empty crc32 (fun _ _ => 0) 1) clean
    keeps acted with ⟨reads, -⟩
  exact ⟨process, acted, reads [1]⟩

end Cdoc
