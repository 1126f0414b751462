import Cdoc.Crash

/-!
# Recency of tables across restarts

Which table is newer is told by its name alone, and the name is a timestamp
of a counter which every process starts at zero.  A life of a directory is
any sequence of events and restarts; a restart may come at any moment, and
the clock of the new process may be behind.

The flushes of a life are recorded in the order in which their tables appear
in the directory.  As long as each of them is dated after the earlier ones,
the directory holds exactly the recorded tables, and opening it lists them
from the latest to the earliest.
-/

namespace Cdoc

open Cdoc.Foundation
open Cdoc.Sst

/-! ## Lives of a directory -/

/-- A table which has appeared in the directory. -/
structure Flush where
  timestamp : Timestamp
  name : Bytes
  contents : Bytes
deriving DecidableEq, Repr

/-- The file of a flush. -/
def Flush.file (flush : Flush) : Bytes × Bytes :=
  (flush.name, flush.contents)

/-- An event of the running process, or the start of the next process. -/
inductive LifeAction where
  | perform (event : Event)
  | restart (memory : Nat → Nat → UInt8) (memtableSize : Nat)

/--
The running process with the timestamp of the flush it has begun last, and
the flushes of all processes so far.
-/
structure Life where
  process : Process
  started : Option Timestamp
  flushes : List Flush

namespace Life

variable (checksum : Checksum) (rendering : Rendering)

/-- The first process of a directory. -/
def first (db : Db) : Life :=
  ⟨Process.start 0 db, none, []⟩

/-- What is recorded of an event which has led to a process. -/
def record (self : Life) (process : Process) : Event → Life
  | .startFlush clock =>
      { self with
        process
        started := (Timestamp.now self.process.counter clock).toOption }
  | .rename =>
      match process.writer, self.started with
      | .renamed _ name, some timestamp =>
          { self with
            process
            flushes := self.flushes ++
              [⟨timestamp, name, (process.sstDir.get name).getD []⟩] }
      | _, _ => { self with process }
  | _ => { self with process }

/-- A life after an event, or after a restart with a new counter. -/
def step (self : Life) : LifeAction → Option Life
  | .perform event => do
      let process ← self.process.step checksum rendering event
      return self.record process event
  | .restart memory memtableSize =>
      match Db.openDb checksum memory self.process.disk memtableSize with
      | .ok (.ok db) => some { self with process := Process.start 0 db }
      | _ => none

/-- A life after a list of actions. -/
def run (self : Life) (actions : List LifeAction) : Option Life :=
  actions.foldlM (step checksum rendering) self

/--
A flush which begins is dated after all earlier ones: the clock, with its
lowest bits cleared, or the counter has come as far as each of them.
-/
def Ahead (self : Life) : LifeAction → Prop
  | .perform (.startFlush clock) =>
      max (clock &&& Timestamp.MASK).toNat self.process.counter.toNat <
          YEAR_9999 ∧
        ∀ flush ∈ self.flushes, flush.timestamp.val.toNat ≤
          max (clock &&& Timestamp.MASK).toNat self.process.counter.toNat
  | _ => True

instance (self : Life) :
    (action : LifeAction) → Decidable (self.Ahead action)
  | .perform (.startFlush clock) =>
      inferInstanceAs (Decidable
        (max (clock &&& Timestamp.MASK).toNat self.process.counter.toNat <
            YEAR_9999 ∧
          ∀ flush ∈ self.flushes, flush.timestamp.val.toNat ≤ max
            (clock &&& Timestamp.MASK).toNat self.process.counter.toNat))
  | .restart .. => inferInstanceAs (Decidable True)
  | .perform .beginReadonly | .perform .begin | .perform (.insert ..)
  | .perform .abort | .perform .drop | .perform (.writeCommit ..)
  | .perform .publish | .perform .finish | .perform (.writeTmp _)
  | .perform .rename | .perform .swap | .perform .resetLog
  | .perform .fail => inferInstanceAs (Decidable True)

/-- Every flush of a life is dated after the earlier ones. -/
def AheadAll : Life → List LifeAction → Prop
  | _, [] => True
  | self, action :: rest =>
      self.Ahead action ∧
        ∀ next ∈ self.step checksum rendering action, AheadAll next rest

instance : (actions : List LifeAction) → (self : Life) →
    Decidable (self.AheadAll checksum rendering actions)
  | [], _ => inferInstanceAs (Decidable True)
  | action :: rest, self =>
      match stepped : self.step checksum rendering action with
      | none => decidable_of_iff (self.Ahead action)
          (by simp [AheadAll, stepped])
      | some next =>
          have := instDecidableAheadAll rest next
          decidable_of_iff
            (self.Ahead action ∧ next.AheadAll checksum rendering rest)
            (by simp [AheadAll, stepped])

end Life

/-! ## What the directory holds -/

section Recorded

variable {checksum : Checksum} {rendering : Rendering}
variable {self next : Life}

/-- The directory holds the recorded tables, in the order of the flushes. -/
structure Recorded (rendering : Rendering) (life : Life) : Prop where
  files : Directory.filesWith SST life.process.sstDir =
    life.flushes.map Flush.file
  named : ∀ flush ∈ life.flushes,
    rendering.fileName flush.timestamp = .ok flush.name
  increasing : life.flushes.Pairwise fun earlier later =>
    earlier.timestamp.val < later.timestamp.val
  flushing : ∀ tx name written remaining,
    life.process.writer = .flushing tx name written remaining →
      ∃ timestamp, life.started = some timestamp ∧
        rendering.fileName timestamp = .ok name ∧
        timestamp.val.toNat ≤ YEAR_9999 ∧
        ∀ flush ∈ life.flushes, flush.timestamp.val < timestamp.val

/-- The record is unaffected by events which leave the tables alone. -/
theorem Recorded.of_frame (recorded : Recorded rendering self)
    {process : Process} (same : self.process.SameTables process) :
    Recorded rendering { self with process } where
  files := by
    rw [← recorded.files]
    exact congrArg (Directory.filesWith SST) same.sstDir
  named := recorded.named
  increasing := recorded.increasing
  flushing := fun tx name written remaining flushing =>
    recorded.flushing tx name written remaining
      (same.flushing tx name written remaining flushing)

/-- A flush begins, dated after all earlier ones. -/
theorem Recorded.startFlush (recorded : Recorded rendering self)
    {clock : UInt64} (ahead : self.Ahead (.perform (.startFlush clock)))
    {process : Process}
    (stepped : self.process.startFlush checksum rendering clock =
      some process) :
    Recorded rendering (self.record process (.startFlush clock)) := by
  obtain ⟨tx, ts, name, bytes, _, time, named, _, rfl⟩ :=
    Process.startFlush_cases stepped
  have value := Timestamp.now_eq_ok_iff.mp time
  exact {
    files :=
      (filesWith_insert_tmp (extension_fileName named) []).trans
        recorded.files
    named := recorded.named
    increasing := recorded.increasing
    flushing := by
      intro tx' name' written remaining flushing
      cases flushing
      refine ⟨ts, ?_, named, ?_, ?_⟩
      · show (Timestamp.now self.process.counter clock).toOption = some ts
        rw [time]
        rfl
      · rw [value]
        exact ahead.1
      · intro flush member
        rw [UInt64.lt_iff_toNat_lt, value]
        exact Nat.lt_succ_of_le (ahead.2 flush member) }

/-- The next bytes of a table reach the file with the temporary name. -/
theorem Recorded.writeTmp (recorded : Recorded rendering self)
    {count : Nat} {process : Process}
    (stepped : self.process.writeTmp count = some process) :
    Recorded rendering { self with process } := by
  obtain ⟨tx, name, written, remaining, flushing, rfl⟩ :=
    Process.writeTmp_cases stepped
  obtain ⟨timestamp, started, named, early, ahead⟩ :=
    recorded.flushing tx name written remaining flushing
  exact {
    files :=
      (filesWith_insert_tmp (extension_fileName named) _).trans
        recorded.files
    named := recorded.named
    increasing := recorded.increasing
    flushing := by
      intro tx' name' written' remaining' again
      cases again
      exact ⟨timestamp, started, named, early, ahead⟩ }

theorem Life.record_rename {self : Life} {process : Process}
    {tx : ReadWriteTransaction} {name contents : Bytes}
    {timestamp : Timestamp}
    (renamed : process.writer = .renamed tx name)
    (started : self.started = some timestamp)
    (found : process.sstDir.get name = some contents) :
    self.record process .rename =
      { self with
        process
        flushes := self.flushes ++ [⟨timestamp, name, contents⟩] } := by
  unfold Life.record
  rw [renamed, started]
  show (⟨process, some timestamp, _⟩ : Life) = _
  rw [found]
  rfl

/-- The table of a flush appears behind all earlier ones. -/
theorem Recorded.rename (recorded : Recorded rendering self)
    (ordered : rendering.OrderedTo9999) {process : Process}
    (stepped : self.process.rename = some process) :
    Recorded rendering (self.record process .rename) := by
  obtain ⟨tx, name, written, contents, flushing, _, rfl⟩ :=
    Process.rename_cases stepped
  obtain ⟨timestamp, started, named, early, ahead⟩ :=
    recorded.flushing tx name written [] flushing
  have table := extension_fileName named
  have unchanged : Directory.filesWith SST
      (self.process.sstDir.erase (tmpName name)) =
      self.flushes.map Flush.file := by
    rw [← recorded.files]
    exact Directory.filesWith_erase_other
      (by rw [extension_tmpName table]; decide)
  have newest : ∀ file ∈ Directory.filesWith SST
      (self.process.sstDir.erase (tmpName name)), file.1 < name := by
    rw [unchanged]
    intro file member
    obtain ⟨flush, isFlush, rfl⟩ := List.mem_map.mp member
    have earlier := UInt64.lt_iff_toNat_lt.mp (ahead flush isFlush)
    exact ordered flush.timestamp timestamp _ _ earlier early
      (recorded.named flush isFlush) named
  have files := Directory.filesWith_insert_last table newest contents
  rw [unchanged] at files
  have found : ((self.process.sstDir.erase (tmpName name)).insert name
      contents).get name = some contents :=
    SortedMap.get_insert_self _ name contents
  rw [Life.record_rename rfl started found]
  exact {
    files := by
      rw [List.map_append]
      exact files
    named := by
      intro flush member
      rcases List.mem_append.mp member with earlier | last
      · exact recorded.named flush earlier
      · rw [List.mem_singleton.mp last]
        exact named
    increasing := by
      refine List.pairwise_append.mpr
        ⟨recorded.increasing, List.pairwise_singleton _ _, ?_⟩
      intro earlier member last isLast
      rw [List.mem_singleton.mp isLast]
      exact ahead earlier member
    flushing := by
      intro tx' name' written' remaining again
      cases again }

/-- An event of a life whose flushes are ahead. -/
theorem Recorded.perform (recorded : Recorded rendering self)
    (ordered : rendering.OrderedTo9999) {event : Event}
    (ahead : self.Ahead (.perform event)) {process : Process}
    (stepped : self.process.step checksum rendering event =
      some process) :
    Recorded rendering (self.record process event) := by
  cases event with
  | startFlush clock => exact recorded.startFlush ahead stepped
  | writeTmp count => exact recorded.writeTmp stepped
  | rename => exact recorded.rename ordered stepped
  | beginReadonly | begin | insert | abort | drop | writeCommit | publish
  | finish | swap | resetLog | fail =>
      exact recorded.of_frame (Process.step_sameTables stepped trivial)

/-! ## Opening -/

/-- A reader which was opened on the table of a flush. -/
def Opens (flush : Flush) (reader : SSTableReader) : Prop :=
  SSTableReader.openTable flush.contents = .ok (.ok reader)

theorem opens_of_openTables {flushes : List Flush}
    {readers : List SSTableReader}
    (opened : Db.openTables (flushes.map Flush.file) = .ok (.ok readers)) :
    List.Forall₂ Opens flushes readers := by
  induction flushes generalizing readers with
  | nil =>
      cases opened
      exact List.Forall₂.nil
  | cons flush flushes induction =>
      obtain ⟨result, first, opened⟩ := bind_eq_ok_iff.mp opened
      split at opened
      · cases opened
      · obtain ⟨others, rest, opened⟩ := bind_eq_ok_iff.mp opened
        split at opened
        · cases opened
        · cases opened
          exact List.Forall₂.cons first (induction rest)

/-- What a successful opening takes from the directory. -/
theorem openDb_cases {memory : Nat → Nat → UInt8} {disk : Disk}
    {memtableSize : Nat} {db : Db}
    (opened : Db.openDb checksum memory disk memtableSize =
      .ok (.ok db)) :
    Db.openTables (Directory.filesWith SST disk.sstDir).reverse =
        .ok (.ok db.readable.sstables) ∧
      Directory.filesWith SST db.sstDir =
        Directory.filesWith SST disk.sstDir := by
  obtain ⟨tables, listed, opened⟩ := bind_eq_ok_iff.mp opened
  rw [filesWith_clean] at listed
  split at opened
  · cases opened
  · obtain ⟨memtable, _, opened⟩ := bind_eq_ok_iff.mp opened
    cases opened
    exact ⟨listed, filesWith_clean disk.sstDir⟩

/-- Opening lists the recorded tables from the latest to the earliest. -/
theorem Recorded.opened (recorded : Recorded rendering self)
    {memory : Nat → Nat → UInt8} {memtableSize : Nat} {db : Db}
    (opened : Db.openDb checksum memory self.process.disk memtableSize =
      .ok (.ok db)) :
    List.Forall₂ Opens self.flushes.reverse db.readable.sstables := by
  obtain ⟨tables, _⟩ := openDb_cases opened
  rw [show Directory.filesWith SST self.process.disk.sstDir =
    self.flushes.map Flush.file from recorded.files,
    ← List.map_reverse] at tables
  exact opens_of_openTables tables

theorem Recorded.restart (recorded : Recorded rendering self)
    {memory : Nat → Nat → UInt8} {memtableSize : Nat} {db : Db}
    (opened : Db.openDb checksum memory self.process.disk memtableSize =
      .ok (.ok db)) :
    Recorded rendering { self with process := Process.start 0 db } where
  files := (openDb_cases opened).2.trans recorded.files
  named := recorded.named
  increasing := recorded.increasing
  flushing := by
    intro tx name written remaining flushing
    cases flushing

/-! ## Whole lives -/

theorem Recorded.step (recorded : Recorded rendering self)
    (ordered : rendering.OrderedTo9999) {action : LifeAction}
    (ahead : self.Ahead action)
    (stepped : self.step checksum rendering action = some next) :
    Recorded rendering next := by
  cases action with
  | perform event =>
      obtain ⟨process, performed, done⟩ :=
        Option.bind_eq_some_iff.mp stepped
      cases done
      exact recorded.perform ordered ahead performed
  | restart memory memtableSize =>
      simp only [Life.step] at stepped
      split at stepped
      · rename_i db opened
        cases stepped
        exact recorded.restart opened
      · cases stepped

theorem Recorded.run (recorded : Recorded rendering self)
    (ordered : rendering.OrderedTo9999) {actions : List LifeAction}
    (ahead : self.AheadAll checksum rendering actions)
    (ran : self.run checksum rendering actions = some next) :
    Recorded rendering next := by
  induction actions generalizing self with
  | nil =>
      cases ran
      exact recorded
  | cons action rest induction =>
      obtain ⟨middle, now, later⟩ := Option.bind_eq_some_iff.mp ran
      exact induction (recorded.step ordered ahead.1 now)
        (ahead.2 middle now) later

theorem recorded_first (rendering : Rendering) (memtableSize : Nat) :
    Recorded rendering (Life.first (Db.fresh memtableSize)) where
  files := rfl
  named := by simp [Life.first]
  increasing := List.Pairwise.nil
  flushing := by
    intro tx name written remaining flushing
    cases flushing

/-- The newest flush whose table has a key answers for it. -/
theorem getFromTables_of_newest {key value : Bytes}
    {newer older : List Flush} {flush : Flush}
    {reader : SSTableReader} {readers : List SSTableReader}
    (opens : List.Forall₂ Opens (newer ++ flush :: older) readers)
    (absent : ∀ other ∈ newer, ∀ reader, Opens other reader →
      reader.get checksum key = .ok none)
    (opened : Opens flush reader)
    (present : reader.get checksum key = .ok (some value)) :
    getFromTables checksum key readers = .ok (some value) := by
  induction newer generalizing readers with
  | nil =>
      obtain ⟨first, rest, same, _, rfl⟩ := List.forall₂_cons_left_iff.mp
        opens
      have reader_eq := same.symm.trans opened
      cases reader_eq
      simp [getFromTables, present]
  | cons other newer induction =>
      obtain ⟨first, rest, opensFirst, opensRest, rfl⟩ :=
        List.forall₂_cons_left_iff.mp opens
      have missing := absent other List.mem_cons_self first opensFirst
      have found := induction opensRest fun flush member =>
        absent flush (List.mem_cons_of_mem _ member)
      simp [getFromTables, missing, found]

end Recorded

/--
A life of a directory, with restarts at any moment and any clock readings,
in which every flush is dated after the earlier ones: no table is replaced,
opening lists the tables from the latest flush to the earliest, and the
newest flushed value of a key is the one which is found.
-/
theorem recency_of_life {checksum : Checksum} {rendering : Rendering}
    (ordered : rendering.OrderedTo9999) {memory : Nat → Nat → UInt8}
    {memtableSize : Nat} {db : Db}
    (opened : Db.openDb checksum memory Disk.empty memtableSize =
      .ok (.ok db))
    {actions : List LifeAction} {life : Life}
    (ahead : (Life.first db).AheadAll checksum rendering actions)
    (ran : (Life.first db).run checksum rendering actions = some life) :
    Directory.filesWith SST life.process.sstDir =
        life.flushes.map Flush.file ∧
      ((life.flushes.map Flush.name).Pairwise (· ≠ ·)) ∧
      ∀ memory' memtableSize' reopened,
        Db.openDb checksum memory' life.process.disk memtableSize' =
            .ok (.ok reopened) →
          List.Forall₂ Opens life.flushes.reverse
              reopened.readable.sstables ∧
            ∀ key value older flush newer reader,
              life.flushes = older ++ flush :: newer →
              (∀ other ∈ newer, ∀ reader, Opens other reader →
                reader.get checksum key = .ok none) →
              Opens flush reader →
              reader.get checksum key = .ok (some value) →
              getFromTables checksum key reopened.readable.sstables =
                .ok (some value) := by
  rw [openDb_empty] at opened
  cases opened
  have recorded := (recorded_first rendering memtableSize).run ordered
    ahead ran
  refine ⟨recorded.files, ?_, ?_⟩
  · -- the names are those of distinct entries of one directory
    have keys : ((life.flushes.map Flush.file).map Prod.fst).Pairwise
        (· < ·) := by
      rw [← recorded.files]
      exact List.pairwise_map.mpr (SortedMap.increasing _)
    have names : (life.flushes.map Flush.file).map Prod.fst =
        life.flushes.map Flush.name := by
      rw [List.map_map]
      rfl
    rw [names] at keys
    exact keys.imp fun less => ne_of_lt less
  · intro memory' memtableSize' reopened result
    have opens := recorded.opened result
    refine ⟨opens, ?_⟩
    intro key value older flush newer reader split absent openedFlush present
    rw [split, List.reverse_append, List.reverse_cons, List.append_assoc,
      List.singleton_append] at opens
    exact getFromTables_of_newest opens
      (fun other member => absent other (List.mem_reverse.mp member))
      openedFlush present

/-- A commit of one key which is flushed. -/
def flushOf (clock : UInt64) (value : Bytes) : List LifeAction :=
  [.perform .begin, .perform (.insert [1] value none),
    .perform (.writeCommit clock none), .perform .publish,
    .perform (.startFlush clock), .perform (.writeTmp 1000),
    .perform .rename, .perform .swap, .perform .resetLog]

/-- The clock of the second process is behind that of the first. -/
def clockBehind : List LifeAction :=
  flushOf 512 [2] ++ [.restart (fun _ _ => 0) 1] ++ flushOf 0 [3]

/-- What is read after a life, and from the table of its last flush. -/
def lastReads (actions : List LifeAction) :
    Option (Checked (Option Bytes) × Checked (Option Bytes) ×
      Checked (Option Bytes)) := do
  let life ← (Life.first (Db.fresh 1)).run crc32 firstSecond actions
  let flush ← life.flushes.getLast?
  match Db.openDb crc32 (fun _ _ => 0) life.process.disk 1,
      SSTableReader.openTable flush.contents with
  | .ok (.ok reopened), .ok (.ok reader) =>
      return (reopened.beginReadonly.get crc32 [1],
        getFromTables crc32 [1] reopened.readable.sstables,
        reader.get crc32 [1])
  | _, _ => none

/-- Opening lists the older table first, and its value is found. -/
theorem clockBehind_older_first :
    ∃ life reopened flush reader,
      (Life.first (Db.fresh 1)).run crc32 firstSecond clockBehind =
        some life ∧
      Db.openDb crc32 (fun _ _ => 0) life.process.disk 1 =
        .ok (.ok reopened) ∧
      reopened.beginReadonly.get crc32 [1] = .ok (some [2]) ∧
      life.flushes.getLast? = some flush ∧
      Opens flush reader ∧ reader.get crc32 [1] = .ok (some [3]) ∧
      ¬ List.Forall₂ Opens life.flushes.reverse
          reopened.readable.sstables := by
  have evaluated : lastReads clockBehind =
      some (.ok (some [2]), .ok (some [2]), .ok (some [3])) := by
    decide +kernel
  unfold lastReads at evaluated
  obtain ⟨life, ran, evaluated⟩ := Option.bind_eq_some_iff.mp evaluated
  obtain ⟨flush, last, evaluated⟩ := Option.bind_eq_some_iff.mp evaluated
  split at evaluated
  · rename_i reopened reader opened opens
    have reads := Option.some.inj evaluated
    simp only [Prod.mk.injEq] at reads
    obtain ⟨read, found, flushed⟩ := reads
    refine ⟨life, reopened, flush, reader, ran, opened, read, last, opens,
      flushed, ?_⟩
    intro listed
    obtain ⟨older, shape⟩ := List.getLast?_eq_some_iff.mp last
    rw [shape, List.reverse_append] at listed
    have inFront : List.Forall₂ Opens ([] ++ flush :: older.reverse)
        reopened.readable.sstables := listed
    have newest := getFromTables_of_newest inFront (by simp) opens flushed
    rw [found] at newest
    cases newest
  · cases evaluated

/-- The clock of the second process is ahead of the first flush. -/
def clockAhead : List LifeAction :=
  flushOf 0 [2] ++ [.restart (fun _ _ => 0) 1] ++ flushOf 512 [3]

theorem recency_of_life_clockAhead :
    ∃ life, (Life.first (Db.fresh 1)).run crc32 firstSecond clockAhead =
        some life ∧
      life.flushes.length = 2 ∧
      Directory.filesWith SST life.process.sstDir =
        life.flushes.map Flush.file := by
  have counted : (((Life.first (Db.fresh 1)).run crc32 firstSecond
      clockAhead).map fun life => life.flushes.length) = some 2 := by
    decide +kernel
  obtain ⟨life, ran, length⟩ := Option.map_eq_some_iff.mp counted
  refine ⟨life, ran, length, ?_⟩
  exact (recency_of_life firstSecond_ordered.to9999
    (openDb_empty crc32 (fun _ _ => 0) 1) (by decide +kernel) ran).1

end Cdoc
